import LetterMachine.Proofs.NumeralPositions

/-!
# Tokens and their numerals

A token is a list of bytes, and the numeral at its front is found in the text that the bytes denote.
All characters of a numeral are of one byte, so the numeral stands at the front of the bytes as
well, whatever the damage behind it is.  The value of a token is therefore a matter of its bytes: of
the longest front part that is a numeral, and of whether there is a point anywhere.
-/

namespace LetterMachine

open Utf8

/-- The byte of a point. -/
def point : UInt8 := 0x2E

/-! ## Numerals among bytes -/

/-- What bytes denote that are characters by themselves. -/
def OnBytes {β : Type} (denotes : List Char → β → Prop) (front : List UInt8) (meaning : β) : Prop :=
  denotes (front.map charOf) meaning

/-- All that denotes something is of characters of one byte. -/
def OfShort {β : Type} (denotes : List Char → β → Prop) : Prop :=
  ∀ {text meaning}, denotes text meaning → ∀ c ∈ text, IsShort c

namespace Decimal

theorem AllDigits.isShort {digits : List Char} (hdigits : AllDigits digits) :
    ∀ c ∈ digits, IsShort c :=
  fun c hmem => Position.isShort_of_isDigit (hdigits c hmem)

theorem SignText.isShort {sign : List Char} {negative : Bool} (hsign : SignText sign negative) :
    ∀ c ∈ sign, IsShort c := by
  cases hsign with
  | missing => exact List.forall_mem_nil _
  | plus | minus => exact List.forall_mem_singleton.mpr (by decide)

theorem ofShort_integerText : OfShort IntegerText := by
  rintro _ _ ⟨hsign, hdigits, -⟩
  exact List.forall_mem_append.mpr ⟨hsign.isShort, hdigits.isShort⟩

theorem IntegerText.point_not_mem {text : List Char} {number : Int}
    (htext : IntegerText text number) : '.' ∉ text := by
  obtain ⟨hsign, hdigits, -⟩ := htext
  rw [List.mem_append, not_or]
  constructor
  · cases hsign <;> decide
  · intro hmem
    cases hdigits '.' hmem

theorem MantissaText.isShort {mantissa digits : List Char} {places : Nat}
    (hmantissa : MantissaText mantissa digits places) : ∀ c ∈ mantissa, IsShort c := by
  have hpoint : IsShort '.' := by decide
  cases hmantissa with
  | whole hdigits => exact hdigits.isShort
  | pointed hwhole _ hfraction =>
      exact List.forall_mem_append.mpr
        ⟨hwhole.isShort, List.forall_mem_cons.mpr ⟨hpoint, hfraction.isShort⟩⟩
  | bare hfraction => exact List.forall_mem_cons.mpr ⟨hpoint, hfraction.isShort⟩

theorem PowerText.isShort {power : List Char} {exponent : Int}
    (hpower : PowerText power exponent) : ∀ c ∈ power, IsShort c := by
  cases hpower with
  | missing => exact List.forall_mem_nil _
  | marked hmark hpower =>
      have hshort := ofShort_integerText hpower
      rcases hmark with rfl | rfl
      all_goals exact List.forall_mem_cons.mpr ⟨by decide, hshort⟩

theorem ofShort_decimalText : OfShort DecimalText := by
  rintro _ _ ⟨hsign, hmantissa, hpower⟩
  exact List.forall_mem_append.mpr
    ⟨List.forall_mem_append.mpr ⟨hsign.isShort, hmantissa.isShort⟩, hpower.isShort⟩

end Decimal

section Longest

variable {β : Type} {denotes : List Char → β → Prop} {token : List UInt8}

/-- What is longest in a decoded text is longest among the bytes. -/
theorem LongestIfAny.onBytes (hshort : OfShort denotes) {text? : Option (List Char)}
    {meaning? : Option β} (hlongest : LongestIfAny denotes (decode token) text? meaning?) :
    ∃ front? : Option (List UInt8), text? = front?.map (List.map charOf) ∧
      LongestIfAny (OnBytes denotes) token front? meaning? := by
  have hdecoded : ∀ {front meaning}, front <+: token → OnBytes denotes front meaning →
      front.map charOf <+: decode token := fun hbegins hdenotes =>
    (isPrefix_decode_iff (hshort hdenotes)).mpr ⟨_, hbegins, rfl⟩
  cases hlongest with
  | missing hnothing =>
      exact ⟨none, rfl, .missing fun front meaning hbegins hdenotes =>
        hnothing _ meaning (hdecoded hbegins hdenotes) hdenotes⟩
  | @found text meaning hlongest =>
      obtain ⟨hbegins, hdenotes, hlength⟩ := hlongest
      obtain ⟨front, hfront, rfl⟩ := (isPrefix_decode_iff (hshort hdenotes)).mp hbegins
      refine ⟨some front, rfl, .found ⟨hfront, hdenotes, ?_⟩⟩
      intro other meaning' hother hdenotes'
      have hle := hlength _ meaning' (hdecoded hother hdenotes') hdenotes'
      rwa [List.length_map, List.length_map] at hle

theorem rightUnique_onBytes (hunique : Relator.RightUnique denotes) :
    Relator.RightUnique (OnBytes denotes) :=
  fun _ _ _ hfirst hsecond => hunique hfirst hsecond

end Longest

/-! ## Values -/

/-- The integer of 64 bits that a number is, if it is in their range. -/
def asInt64? (number : Int) : Option Int64 :=
  if Int64.minValue.toInt ≤ number ∧ number ≤ Int64.maxValue.toInt then some (.ofInt number)
  else none

theorem asInt64?_eq_some_iff {number : Int} {whole : Int64} :
    asInt64? number = some whole ↔ whole.toInt = number := by
  simp only [asInt64?, Option.ite_none_right_eq_some, Option.some.injEq]
  constructor
  · rintro ⟨⟨hmin, hmax⟩, rfl⟩
    exact Int64.toInt_ofInt_of_le hmin (Int.lt_of_le_of_lt hmax (by decide))
  · rintro rfl
    exact ⟨⟨Int64.minValue_le_toInt whole, Int64.toInt_le whole⟩, Int64.ofInt_toInt whole⟩

/-- The double nearest to a number. -/
def Decimal.Number.nearest (number : Number) : Binary64 :=
  .nearestDecimal number.negative number.coefficient number.exponent

namespace Value

/-- The value of an integer.  One that is missing or out of range is minus one. -/
def ofInteger? (number? : Option Int) : Value :=
  ((number?.bind asInt64?).map .integer).getD (.integer (-1))

/-- The value of a number in decimal notation.  One that is missing is minus one. -/
def ofNumber? (number? : Option Decimal.Number) : Value :=
  (number?.map fun number => ofBinary64 number.nearest).getD (.integer (-1))

theorem ofInt?_eq (number : Int) : ofInt? number = (asInt64? number).map .integer := by
  unfold ofInt? asInt64?
  split
  · rw [Option.map_some, Int64.ofIntLE_eq_ofInt]
  · rfl

theorem ofToken_of_point {text : List Char} (hpoint : '.' ∈ text) :
    ofToken text = ofNumber? ((Decimal.readDecimal? text).map Prod.fst) := by
  have hcontains : text.contains '.' = true := List.contains_iff_mem.mpr hpoint
  have hnearest (number : Decimal.Number) :
      Binary64.ofDecimal number.negative number.coefficient number.exponent = number.nearest :=
    Binary64.ofDecimal_eq_nearestDecimal ..
  simp only [ofToken, if_pos hcontains, leadingDecimal?_eq, hnearest, ofNumber?, Option.map_map,
    Function.comp_def, unreadable]

theorem ofToken_of_not_point {text : List Char} (hpoint : '.' ∉ text) :
    ofToken text = ofInteger? ((Decimal.readInteger? text).map Prod.fst) := by
  have hcontains : ¬text.contains '.' = true := List.contains_iff_mem.not.mpr hpoint
  rw [ofToken, if_neg hcontains, leadingInteger?_eq, ofInteger?]
  cases Decimal.readInteger? text with
  | none => rfl
  | some found =>
      rw [Option.bind_some, ofInt?_eq]
      rfl

/-- An integer that is in range is read as itself. -/
theorem ofToken_of_integerText {text : List Char} {whole : Int64}
    (htext : Decimal.IntegerText text whole.toInt) : ofToken text = .integer whole := by
  have hwhole := asInt64?_eq_some_iff.mpr (rfl : whole.toInt = whole.toInt)
  rw [ofToken_of_not_point htext.point_not_mem, Decimal.finds_readInteger?.exact htext, ofInteger?,
    Option.map_some, Option.bind_some, hwhole, Option.map_some, Option.getD_some]

end Value

/-- The numeral that a token is read as, if there is one, and the value. -/
inductive ReadAs (token : List UInt8) : Option (List UInt8) → Value → Prop where
  | integer {front? : Option (List UInt8)} {number? : Option Int} (hpoint : point ∉ token)
      (hfront : LongestIfAny (OnBytes Decimal.IntegerText) token front? number?) :
      ReadAs token front? (.ofInteger? number?)
  | decimal {front? : Option (List UInt8)} {number? : Option Decimal.Number}
      (hpoint : point ∈ token)
      (hfront : LongestIfAny (OnBytes Decimal.DecimalText) token front? number?) :
      ReadAs token front? (.ofNumber? number?)

section ReadAs

variable {token other : List UInt8} {front? front?' : Option (List UInt8)} {value value' : Value}

theorem ReadAs.front_eq (hfirst : ReadAs token front? value)
    (hsecond : ReadAs token front?' value') : front? = front?' := by
  cases hfirst with
  | integer hpoint hfront =>
      cases hsecond with
      | integer _ hfront' => exact hfront.front_eq hfront'
      | decimal hpoint' => exact absurd hpoint' hpoint
  | decimal hpoint hfront =>
      cases hsecond with
      | integer hpoint' => exact absurd hpoint hpoint'
      | decimal _ hfront' => exact hfront.front_eq hfront'

/-- The value is known from the numeral and from whether there is a point. -/
theorem ReadAs.value_eq (hsame : point ∈ other ↔ point ∈ token)
    (hfirst : ReadAs token front? value) (hsecond : ReadAs other front? value') :
    value' = value := by
  cases hfirst with
  | integer hpoint hfront =>
      cases hsecond with
      | integer _ hfront' =>
          have hunique := rightUnique_onBytes Decimal.finds_readInteger?.rightUnique
          rw [hfront.meaning_eq hunique hfront']
      | decimal hpoint' => exact absurd (hsame.mp hpoint') hpoint
  | decimal hpoint hfront =>
      cases hsecond with
      | integer hpoint' => exact absurd (hsame.mpr hpoint) hpoint'
      | decimal _ hfront' =>
          have hunique := rightUnique_onBytes Decimal.finds_readDecimal?.rightUnique
          rw [hfront.meaning_eq hunique hfront']

end ReadAs

/-! ## Reading by positions -/

/-- Parsers that know the grammar.  An integer is parsed if it is in range, and a number in decimal
notation is always parsed, as the nearest double.  Nothing is said of any other text. -/
structure Parsers where
  integer? : List Char → Option Int64
  double? : List Char → Option Binary64
  integer?_eq : ∀ {text number}, Decimal.IntegerText text number →
    integer? text = asInt64? number
  double?_eq : ∀ {text number}, Decimal.DecimalText text number →
    double? text = some number.nearest

/-- Parsers that accept nothing but the grammar. -/
def Parsers.strict : Parsers where
  integer? text := (Decimal.readInteger? text).bind fun (number, rest) =>
    if rest.isEmpty then asInt64? number else none
  double? text := (Decimal.readDecimal? text).bind fun (number, rest) =>
    if rest.isEmpty then some number.nearest else none
  integer?_eq hdenotes := by
    rw [Decimal.finds_readInteger?.exact hdenotes]
    rfl
  double?_eq hdenotes := by
    rw [Decimal.finds_readDecimal?.exact hdenotes]
    rfl

/-- The value of a token, from the numeral that a search by positions finds. -/
def Position.value? (parsers : Parsers) (text : List Char) : Option Value := do
  let decimal := text.contains '.'
  match ← numeral? text decimal with
  | none => return .integer (-1)
  | some front =>
    let parsed? :=
      if decimal then (parsers.double? front).map .ofBinary64
      else (parsers.integer? front).map .integer
    return parsed?.getD (.integer (-1))

namespace Position

section Value

variable {parsers : Parsers} {text front : List Char}

theorem value?_of_missing (hnumeral : numeral? text (text.contains '.') = some none) :
    value? parsers text = some (.integer (-1)) := by
  rw [value?]
  simp only [hnumeral]
  rfl

theorem value?_of_found (hnumeral : numeral? text (text.contains '.') = some (some front)) :
    value? parsers text =
      some ((if text.contains '.' then (parsers.double? front).map .ofBinary64
        else (parsers.integer? front).map .integer).getD (.integer (-1))) := by
  rw [value?]
  simp only [hnumeral]
  rfl

theorem value?_of_decimal {number? : Option Decimal.Number} {front? : Option (List Char)}
    (hpoint : text.contains '.' = true) (hnumeral : numeral? text true = some front?)
    (hfront : LongestIfAny Decimal.DecimalText text front? number?) :
    value? parsers text = some (.ofNumber? number?) := by
  rw [← hpoint] at hnumeral
  cases hfront with
  | missing => exact value?_of_missing hnumeral
  | found hlongest =>
      rw [value?_of_found hnumeral, if_pos hpoint, parsers.double?_eq hlongest.denotes_front,
        Option.map_some, Option.getD_some, Value.ofNumber?, Option.map_some, Option.getD_some]

theorem value?_of_integer {number? : Option Int} {front? : Option (List Char)}
    (hpoint : text.contains '.' = false) (hnumeral : numeral? text false = some front?)
    (hfront : LongestIfAny Decimal.IntegerText text front? number?) :
    value? parsers text = some (.ofInteger? number?) := by
  rw [← hpoint] at hnumeral
  cases hfront with
  | missing => exact value?_of_missing hnumeral
  | found hlongest =>
      rw [value?_of_found hnumeral, if_neg (Bool.eq_false_iff.mp hpoint),
        parsers.integer?_eq hlongest.denotes_front, Value.ofInteger?, Option.bind_some]

/-- A token is read by positions as it is by the reader, and none of the steps goes wrong. -/
theorem value?_eq (parsers : Parsers) (text : List Char) :
    value? parsers text = some (.ofToken text) := by
  by_cases hpoint : '.' ∈ text
  · have hcontains : text.contains '.' = true := List.contains_iff_mem.mpr hpoint
    obtain ⟨front?, hnumeral, hlongest⟩ := numeral?_decimal text
    rw [Value.ofToken_of_point hpoint, value?_of_decimal hcontains hnumeral hlongest]
  · have hcontains : text.contains '.' = false := by simpa using hpoint
    obtain ⟨front?, hnumeral, hlongest⟩ := numeral?_integer text
    rw [Value.ofToken_of_not_point hpoint, value?_of_integer hcontains hnumeral hlongest]

end Value

end Position

section Token

variable {token other : List UInt8} {front? : Option (List UInt8)} {value : Value}

theorem mem_decode_point : '.' ∈ decode token ↔ point ∈ token :=
  mem_decode_iff (by decide) token

/-- A token has a numeral that it is read as, or it has none, and a search by positions finds it. -/
theorem exists_readAs (token : List UInt8) :
    ∃ front?, ReadAs token front? (.ofToken (decode token)) ∧
      Position.numeral? (decode token) (decide (point ∈ token)) =
        some (front?.map (List.map charOf)) := by
  by_cases hpoint : point ∈ token
  · obtain ⟨text?, hnumeral, hlongest⟩ := Position.numeral?_decimal (decode token)
    obtain ⟨front?, rfl, hfront⟩ := hlongest.onBytes Decimal.ofShort_decimalText
    rw [Value.ofToken_of_point (mem_decode_point.mpr hpoint), decide_eq_true hpoint]
    exact ⟨front?, .decimal hpoint hfront, hnumeral⟩
  · obtain ⟨text?, hnumeral, hlongest⟩ := Position.numeral?_integer (decode token)
    obtain ⟨front?, rfl, hfront⟩ := hlongest.onBytes Decimal.ofShort_integerText
    rw [Value.ofToken_of_not_point (mem_decode_point.not.mpr hpoint), decide_eq_false hpoint]
    exact ⟨front?, .integer hpoint hfront, hnumeral⟩

theorem ReadAs.isSome_double? (hread : ReadAs token front? value) (hpoint : point ∈ token)
    (parsers : Parsers) : ∀ front ∈ front?, (parsers.double? (front.map charOf)).isSome := by
  intro front hfront
  cases hread with
  | integer hpoint' => exact absurd hpoint hpoint'
  | decimal _ hlongest =>
      cases hlongest with
      | missing => cases hfront
      | found hlongest =>
          obtain rfl := Option.some.inj hfront
          rw [parsers.double?_eq hlongest.denotes_front]
          rfl

theorem ReadAs.ofToken_eq (hfirst : ReadAs token front? (.ofToken (decode token)))
    (hsame : point ∈ other ↔ point ∈ token) (hsecond : ReadAs other front? value) :
    Value.ofToken (decode other) = .ofToken (decode token) := by
  obtain ⟨front?', hread, -⟩ := exists_readAs other
  rw [hread.front_eq hsecond] at hread
  exact hfirst.value_eq hsame hread

end Token

/-- How a token is read, with the numeral at its front. -/
structure ReadsNumeral (parsers : Parsers) (token : List UInt8) (front? : Option (List UInt8)) :
    Prop where
  readAs : ReadAs token front? (.ofToken (decode token))
  /-- A search by positions stays among the bytes, cuts no character, and finds the numeral. -/
  numeral : Position.numeral? (decode token) (decide (point ∈ token)) =
    some (front?.map (List.map charOf))
  value : Position.value? parsers (decode token) = some (.ofToken (decode token))
  /-- The numeral is always one that the parser of doubles accepts. -/
  double : point ∈ token → ∀ front ∈ front?, (parsers.double? (front.map charOf)).isSome
  unique : ∀ {other? value}, ReadAs token other? value →
    other? = front? ∧ value = .ofToken (decode token)
  /-- The bytes behind the numeral have no influence but that one of them can be a point. -/
  independent : ∀ {other value}, (point ∈ other ↔ point ∈ token) → ReadAs other front? value →
    Value.ofToken (decode other) = .ofToken (decode token)

/-- **A token is read as the longest numeral at its front**, which is an integer unless there is a
point in the token, and nothing else of it matters. -/
theorem ofToken_readsNumeral (parsers : Parsers) (token : List UInt8) :
    ∃ front?, ReadsNumeral parsers token front? := by
  obtain ⟨front?, hread, hnumeral⟩ := exists_readAs token
  refine ⟨front?, ?_⟩
  constructor
  case readAs => exact hread
  case numeral => exact hnumeral
  case value => exact Position.value?_eq parsers (decode token)
  case double => exact fun hpoint => hread.isSome_double? hpoint parsers
  case unique =>
    intro other? value hother
    have hfront := hother.front_eq hread
    rw [hfront] at hother
    exact ⟨hfront, hread.value_eq Iff.rfl hother⟩
  case independent => exact hread.ofToken_eq

/-- An exponent without digits is not part of the numeral, and nor is a damaged character. -/
theorem ofToken_readsNumeral_of_unfinished_exponent :
    let token : List UInt8 := [0x2D, 0x32, 0x2E, 0x65, 0x2B, 0xFF]
    ∃ front, ReadsNumeral Parsers.strict token (some front) ∧ front.map charOf = ['-', '2', '.'] ∧
      Value.ofToken (decode token) = .integer (-2) := by
  intro token
  obtain ⟨front?, hreads⟩ := ofToken_readsNumeral Parsers.strict token
  have hnumeral : Position.numeral? (decode token) (decide (point ∈ token)) =
      some (some ['-', '2', '.']) := by decide
  have hfront := Option.some.inj (hreads.numeral.symm.trans hnumeral)
  obtain ⟨front, rfl, htext⟩ := Option.map_eq_some_iff.mp hfront
  exact ⟨front, hreads, htext, by decide +kernel⟩

end LetterMachine
