import LetterMachine.Proofs.Numerals

/-!
# Numerals by positions

A numeral can be looked for by positions among the bytes of a text, without taking the text apart:
the bytes from a position on are searched for digits, the position is moved, and in the end the text
is cut there.  Each of these steps can go wrong, as a position can be behind the end of the bytes or
inside a character of several bytes.  Here the steps are written so that they say when they do, and
none of them ever does: every position that the search comes by stands behind characters of one byte
only.  `Position.Behind` is that invariant.
-/

namespace LetterMachine

open Utf8

namespace Position

/-! ## The search -/

def isDigitByte (byte : UInt8) : Bool :=
  0x30 ≤ byte && byte ≤ 0x39

/-- The number of digits from a position on, unless the position is behind the end. -/
def digitsAt? (bytes : List UInt8) (position : Nat) : Option Nat :=
  if position ≤ bytes.length then
    some ((bytes.drop position).takeWhile isDigitByte).length
  else
    none

/-- The width of the sign at a position, or zero if there is none. -/
def signAt (bytes : List UInt8) (position : Nat) : Nat :=
  if bytes[position]? = some 0x2B ∨ bytes[position]? = some 0x2D then 1 else 0

/-- The number of digits before and behind a point, and where they end. -/
def mantissaAt? (bytes : List UInt8) (position : Nat) : Option (Nat × Nat) := do
  let whole ← digitsAt? bytes position
  let stop := position + whole
  if bytes[stop]? = some 0x2E then
    let fraction ← digitsAt? bytes (stop + 1)
    if 0 < whole + fraction then return (whole + fraction, stop + 1 + fraction)
    else return (whole, stop)
  else
    return (whole, stop)

/-- Where an exponent ends.  It ends where it would start if there is none. -/
def powerAt? (bytes : List UInt8) (position : Nat) : Option Nat :=
  if bytes[position]? = some 0x65 ∨ bytes[position]? = some 0x45 then do
    let start := position + 1 + signAt bytes (position + 1)
    let digits ← digitsAt? bytes start
    return if 0 < digits then start + digits else position
  else
    some position

/-- Where the numeral at the beginning of the bytes ends, if there is one. -/
def numeralEnd? (bytes : List UInt8) (decimal : Bool) : Option (Option Nat) := do
  let start := signAt bytes 0
  if decimal then
    let (digits, stop) ← mantissaAt? bytes start
    if 0 < digits then return some (← powerAt? bytes stop) else return none
  else
    let digits ← digitsAt? bytes start
    return if 0 < digits then some (start + digits) else none

/-- The characters whose bytes are the first ones of a text, unless there are not as many bytes, or
a character would be cut. -/
def cut? (text : List Char) (position : Nat) : Option (List Char) :=
  match text, position with
  | _, 0 => some []
  | [], _ + 1 => none
  | c :: rest, position + 1 =>
    if c.utf8Size ≤ position + 1 then (cut? rest (position + 1 - c.utf8Size)).map (c :: ·) else none

/-- A position inside a character is found out, and so is one behind the end. -/
example : cut? ['\u00E9', '1'] 1 = none ∧ digitsAt? [0x31] 2 = none := by
  decide

/-- The numeral at the beginning of a text, if there is one. -/
def numeral? (text : List Char) (decimal : Bool) : Option (Option (List Char)) := do
  match ← numeralEnd? (encode text) decimal with
  | none => return none
  | some stop => return some (← cut? text stop)

/-! ## Positions behind characters of one byte -/

/-- A position among the bytes of a text stands between two characters, and all characters before it
are of one byte. -/
structure Behind (text : List Char) (position : Nat) (rest : List Char) : Prop where
  exists_front : ∃ front, text = front ++ rest ∧ (∀ c ∈ front, IsShort c) ∧ front.length = position

variable {text front rest : List Char} {position : Nat} {c : Char}

theorem Behind.start (text : List Char) : Behind text 0 text :=
  ⟨[], rfl, nofun, rfl⟩

theorem Behind.advance (hbehind : Behind text position (front ++ rest))
    (hfront : ∀ c ∈ front, IsShort c) : Behind text (position + front.length) rest := by
  obtain ⟨before, rfl, hbefore, rfl⟩ := hbehind
  refine ⟨before ++ front, (List.append_assoc ..).symm, ?_, List.length_append⟩
  exact List.forall_mem_append.mpr ⟨hbefore, hfront⟩

theorem Behind.encode_eq (hbehind : Behind text position rest) :
    ∃ front, encode text = front ++ encode rest ∧ front.length = position := by
  obtain ⟨front, rfl, hfront, rfl⟩ := hbehind
  rw [encode_append, encode_of_isShort hfront]
  exact ⟨_, rfl, List.length_map ..⟩

theorem Behind.drop_encode (hbehind : Behind text position rest) :
    position ≤ (encode text).length ∧ (encode text).drop position = encode rest := by
  obtain ⟨front, htext, rfl⟩ := hbehind.encode_eq
  rw [htext]
  exact ⟨by simp, List.drop_left⟩

theorem Behind.getElem?_encode (hbehind : Behind text position rest) (hshort : IsShort c) :
    (encode text)[position]? = some (byteOf c) ↔ rest.head? = some c := by
  rw [← head?_encode_iff hshort, ← hbehind.drop_encode.2, List.head?_drop]

/-! ### Digits -/

theorem isDigit_iff : c.isDigit = true ↔ 0x30 ≤ c.toNat ∧ c.toNat ≤ 0x39 := by
  simp only [Char.isDigit, Bool.and_eq_true, decide_eq_true_eq, UInt32.le_iff_toNat_le, ge_iff_le]
  rfl

theorem isDigitByte_iff {byte : UInt8} :
    isDigitByte byte = true ↔ 0x30 ≤ byte.toNat ∧ byte.toNat ≤ 0x39 := by
  simp only [isDigitByte, Bool.and_eq_true, decide_eq_true_eq, UInt8.le_iff_toNat_le,
    UInt8.reduceToNat]

theorem isShort_of_isDigit (hdigit : c.isDigit = true) : IsShort c := by
  rw [isDigit_iff] at hdigit
  constructor <;> omega

theorem isDigitByte_byteOf (hdigit : c.isDigit = true) : isDigitByte (byteOf c) = true := by
  rwa [isDigitByte_iff, toNat_byteOf (isShort_of_isDigit hdigit), ← isDigit_iff]

/-- A byte of a digit is that of a character by itself. -/
theorem exists_of_isDigitByte {byte : UInt8} (hdigit : isDigitByte byte = true) :
    ∃ c : Char, c.isDigit = true ∧ byteOf c = byte := by
  rw [isDigitByte_iff] at hdigit
  have hbyte : byte.toNat < 0x80 := by omega
  refine ⟨charOf byte, ?_, byteOf_charOf hbyte⟩
  rwa [isDigit_iff, toNat_charOf hbyte]

/-- The digits at the beginning of the bytes are those at the beginning of the text. -/
theorem length_takeWhile_encode (text : List Char) :
    ((encode text).takeWhile isDigitByte).length = (Decimal.spanDigits text).1.length := by
  induction text with
  | nil => rfl
  | cons c rest ih =>
      by_cases hdigit : c.isDigit = true
      · rw [encode_cons_of_isShort (isShort_of_isDigit hdigit),
          List.takeWhile_cons_of_pos (isDigitByte_byteOf hdigit), Decimal.spanDigits,
          List.takeWhile_cons_of_pos hdigit, List.length_cons, List.length_cons, ih]
        rfl
      · have hnone : (encode (c :: rest)).takeWhile isDigitByte = [] := by
          cases hbytes : encode (c :: rest) with
          | nil => rfl
          | cons byte bytes =>
              apply List.takeWhile_cons_of_neg
              intro hbyte
              obtain ⟨digit, hdigit', rfl⟩ := exists_of_isDigitByte hbyte
              have hhead := (head?_encode_iff (isShort_of_isDigit hdigit') (c :: rest)).mp
                (by rw [hbytes]; rfl)
              obtain rfl : c = digit := Option.some.inj hhead
              exact hdigit hdigit'
        rw [hnone, Decimal.spanDigits, List.takeWhile_cons_of_neg hdigit]
        rfl

theorem Behind.digits (hbehind : Behind text position rest) :
    digitsAt? (encode text) position = some (Decimal.spanDigits rest).1.length ∧
      Behind text (position + (Decimal.spanDigits rest).1.length) (Decimal.spanDigits rest).2 := by
  obtain ⟨hle, hdrop⟩ := hbehind.drop_encode
  constructor
  · rw [digitsAt?, if_pos hle, hdrop, length_takeWhile_encode]
  · rw [Decimal.spanDigits_split rest] at hbehind
    exact hbehind.advance fun c hmem =>
      isShort_of_isDigit (Decimal.allDigits_spanDigits rest c hmem)

/-- A character of one byte can be passed over. -/
theorem Behind.succ (hbehind : Behind text position rest) (hshort : IsShort c)
    (hhead : (encode text)[position]? = some (byteOf c)) :
    ∃ more, rest = c :: more ∧ Behind text (position + 1) more := by
  obtain ⟨more, rfl⟩ := List.head?_eq_some_iff.mp ((hbehind.getElem?_encode hshort).mp hhead)
  have hbehind : Behind text position ([c] ++ more) := hbehind
  exact ⟨more, rfl, hbehind.advance (List.forall_mem_singleton.mpr hshort)⟩

theorem Behind.head?_ne (hbehind : Behind text position rest) (hshort : IsShort c)
    (hhead : (encode text)[position]? ≠ some (byteOf c)) : ∀ first ∈ rest.head?, first ≠ c := by
  rintro first hfirst rfl
  exact hhead ((hbehind.getElem?_encode hshort).mpr hfirst)

theorem Behind.sign (hbehind : Behind text position rest) :
    Behind text (position + signAt (encode text) position) (Decimal.splitSign rest).2 := by
  by_cases hplus : (encode text)[position]? = some (byteOf '+')
  · obtain ⟨more, rfl, hmore⟩ := hbehind.succ (by decide) hplus
    have hsign : signAt (encode text) position = 1 := if_pos (Or.inl hplus)
    rwa [hsign]
  · by_cases hminus : (encode text)[position]? = some (byteOf '-')
    · obtain ⟨more, rfl, hmore⟩ := hbehind.succ (by decide) hminus
      have hsign : signAt (encode text) position = 1 := if_pos (Or.inr hminus)
      rwa [hsign]
    · have hsign : signAt (encode text) position = 0 := if_neg (not_or_intro hplus hminus)
      have hhead : ∀ first ∈ rest.head?, first ≠ '-' ∧ first ≠ '+' := fun first hfirst =>
        ⟨hbehind.head?_ne (by decide) hminus first hfirst,
          hbehind.head?_ne (by decide) hplus first hfirst⟩
      have hsplit : Decimal.splitSign rest = (false, rest) :=
        Decimal.splitSign_append .missing hhead
      rwa [hsign, hsplit]

/-! ### Parts of a numeral -/

section Scan

variable {bytes : List UInt8} {whole fraction digits : Nat}

theorem mantissaAt?_of_point (hwhole : digitsAt? bytes position = some whole)
    (hpoint : bytes[position + whole]? = some 0x2E)
    (hfraction : digitsAt? bytes (position + whole + 1) = some fraction) :
    mantissaAt? bytes position =
      some (if 0 < whole + fraction then (whole + fraction, position + whole + 1 + fraction)
        else (whole, position + whole)) := by
  rw [mantissaAt?, hwhole, Option.bind_eq_bind, Option.bind_some, if_pos hpoint, hfraction,
    Option.bind_some]
  split <;> rfl

theorem mantissaAt?_of_ne (hwhole : digitsAt? bytes position = some whole)
    (hpoint : bytes[position + whole]? ≠ some 0x2E) :
    mantissaAt? bytes position = some (whole, position + whole) := by
  rw [mantissaAt?, hwhole, Option.bind_eq_bind, Option.bind_some, if_neg hpoint]
  rfl

theorem powerAt?_of_mark (hmark : bytes[position]? = some 0x65 ∨ bytes[position]? = some 0x45)
    (hdigits : digitsAt? bytes (position + 1 + signAt bytes (position + 1)) = some digits) :
    powerAt? bytes position =
      some (if 0 < digits then position + 1 + signAt bytes (position + 1) + digits
        else position) := by
  rw [powerAt?, if_pos hmark]
  simp only [hdigits]
  rfl

end Scan

theorem Behind.mantissa (hbehind : Behind text position rest) :
    let found := Decimal.readMantissa rest
    ∃ stop, mantissaAt? (encode text) position =
      some (found.1.1.length + found.1.2.length, stop) ∧ Behind text stop found.2 := by
  obtain ⟨hwhole, hstop⟩ := hbehind.digits
  simp only [Decimal.readMantissa]
  generalize Decimal.spanDigits rest = found at hwhole hstop
  obtain ⟨whole, behind⟩ := found
  by_cases hpoint : (encode text)[position + whole.length]? = some (byteOf '.')
  · obtain ⟨more, rfl, hmore⟩ := hstop.succ (by decide) hpoint
    obtain ⟨hfraction, hend⟩ := hmore.digits
    rw [mantissaAt?_of_point hwhole hpoint hfraction]
    by_cases hdigits : whole = [] ∧ (Decimal.spanDigits more).1 = []
    · obtain ⟨rfl, hempty⟩ := hdigits
      have hspan : Decimal.spanFraction [] ('.' :: more) = ([], '.' :: more) := by
        simp [Decimal.spanFraction, hempty]
      rw [hspan, hempty]
      exact ⟨position, rfl, hstop⟩
    · have hpositive : 0 < whole.length + (Decimal.spanDigits more).1.length := by
        simp only [← List.length_eq_zero_iff] at hdigits
        omega
      rw [Decimal.spanFraction_of_point hdigits, if_pos hpositive]
      exact ⟨_, rfl, hend⟩
  · have hhead : ∀ first ∈ behind.head?, first ≠ '.' := hstop.head?_ne (by decide) hpoint
    rw [Decimal.spanFraction_of_head hhead, mantissaAt?_of_ne hwhole hpoint]
    exact ⟨_, rfl, hstop⟩

theorem Behind.power (hbehind : Behind text position rest) :
    ∃ stop, powerAt? (encode text) position = some stop ∧
      Behind text stop (Decimal.readPower rest).2 := by
  by_cases hmark : (encode text)[position]? = some (byteOf 'e') ∨
      (encode text)[position]? = some (byteOf 'E')
  · obtain ⟨mark, more, hmark', rfl, hmore⟩ : ∃ mark more, (mark = 'e' ∨ mark = 'E') ∧
        rest = mark :: more ∧ Behind text (position + 1) more := by
      rcases hmark with hmark | hmark
      · obtain ⟨more, hrest, hmore⟩ := hbehind.succ (by decide) hmark
        exact ⟨'e', more, Or.inl rfl, hrest, hmore⟩
      · obtain ⟨more, hrest, hmore⟩ := hbehind.succ (by decide) hmark
        exact ⟨'E', more, Or.inr rfl, hrest, hmore⟩
    obtain ⟨hdigits, hend⟩ := hmore.sign.digits
    rw [Decimal.readPower_of_mark hmark', powerAt?_of_mark hmark hdigits, Decimal.readInteger?_eq]
    generalize Decimal.spanDigits (Decimal.splitSign more).2 = found at hend
    obtain ⟨digits, behind⟩ := found
    cases digits with
    | nil => exact ⟨position, rfl, hbehind⟩
    | cons first digits => exact ⟨_, rfl, hend⟩
  · have hhead : ∀ first ∈ rest.head?, ¬(first = 'e' ∨ first = 'E') := fun first hfirst =>
      not_or_intro (hbehind.head?_ne (by decide) (fun h => hmark (Or.inl h)) first hfirst)
        (hbehind.head?_ne (by decide) (fun h => hmark (Or.inr h)) first hfirst)
    rw [Decimal.readPower_of_head hhead]
    exact ⟨position, if_neg hmark, hbehind⟩

/-! ### Whole numerals -/

theorem Behind.cut? (hbehind : Behind text position rest) :
    ∃ front, Position.cut? text position = some front ∧ text = front ++ rest := by
  obtain ⟨front, rfl, hfront, rfl⟩ := hbehind
  refine ⟨front, ?_, rfl⟩
  induction front with
  | nil => unfold Position.cut?; rfl
  | cons c front ih =>
      rw [List.forall_mem_cons] at hfront
      rw [List.cons_append, List.length_cons, Position.cut?, utf8Size_of_isShort hfront.1,
        if_pos (Nat.le_add_left 1 _), Nat.add_sub_cancel, ih hfront.2]
      rfl

theorem numeralEnd?_integer (text : List Char) :
    ∃ stop?, numeralEnd? (encode text) false = some stop? ∧
      Option.Rel (Behind text) stop? ((Decimal.readInteger? text).map Prod.snd) := by
  have hsign := (Behind.start text).sign
  obtain ⟨hdigits, hend⟩ := hsign.digits
  rw [Nat.zero_add] at hdigits hend
  rw [Decimal.readInteger?_eq]
  simp only [numeralEnd?, hdigits]
  generalize Decimal.spanDigits (Decimal.splitSign text).2 = found at hend
  obtain ⟨digits, rest⟩ := found
  cases digits with
  | nil => exact ⟨none, rfl, .none⟩
  | cons first digits => exact ⟨_, rfl, .some hend⟩

theorem numeralEnd?_decimal (text : List Char) :
    ∃ stop?, numeralEnd? (encode text) true = some stop? ∧
      Option.Rel (Behind text) stop? ((Decimal.readDecimal? text).map Prod.snd) := by
  have hsign := (Behind.start text).sign
  obtain ⟨stop, hmantissa, hstop⟩ := hsign.mantissa
  rw [Nat.zero_add] at hmantissa
  rcases hread : Decimal.readMantissa (Decimal.splitSign text).2 with ⟨⟨whole, fraction⟩, rest⟩
  rw [hread] at hmantissa hstop
  obtain ⟨stop', hpower, hstop'⟩ := hstop.power
  by_cases hempty : whole = [] ∧ fraction = []
  · obtain ⟨rfl, rfl⟩ := hempty
    have hnone : Decimal.readDecimal? text = none := by
      simp [Decimal.readDecimal?, hread]
    rw [hnone]
    simp only [numeralEnd?, hmantissa]
    exact ⟨none, rfl, .none⟩
  · have hpositive : 0 < whole.length + fraction.length := by
      simp only [← List.length_eq_zero_iff] at hempty
      omega
    rw [Decimal.readDecimal?_eq rfl hread hempty]
    simp only [numeralEnd?, hmantissa]
    refine ⟨some stop', ?_, .some hstop'⟩
    simp [hpositive, hpower]

/-- The text is cut where the search ends. -/
theorem numeral?_of_numeralEnd? {decimal : Bool} {stop? : Option Nat} {rest? : Option (List Char)}
    (hend : numeralEnd? (encode text) decimal = some stop?)
    (hbehind : Option.Rel (Behind text) stop? rest?) :
    ∃ front?, numeral? text decimal = some front? ∧
      Option.Rel (fun front rest => text = front ++ rest) front? rest? := by
  simp only [numeral?, hend]
  cases hbehind with
  | none => exact ⟨none, rfl, .none⟩
  | some hbehind =>
      obtain ⟨front, hcut, htext⟩ := hbehind.cut?
      refine ⟨some front, ?_, .some htext⟩
      simp [hcut]

/-- **A search by positions finds the longest integer**, and none of its steps goes wrong. -/
theorem numeral?_integer (text : List Char) :
    ∃ front?, numeral? text false = some front? ∧
      LongestIfAny Decimal.IntegerText text front?
        ((Decimal.readInteger? text).map Prod.fst) := by
  obtain ⟨stop?, hend, hbehind⟩ := numeralEnd?_integer text
  obtain ⟨front?, hfront, hrest⟩ := numeral?_of_numeralEnd? hend hbehind
  exact ⟨front?, hfront, Decimal.finds_readInteger?.longestIfAny hrest⟩

/-- **A search by positions finds the longest number in decimal notation**, and none of its steps
goes wrong. -/
theorem numeral?_decimal (text : List Char) :
    ∃ front?, numeral? text true = some front? ∧
      LongestIfAny Decimal.DecimalText text front?
        ((Decimal.readDecimal? text).map Prod.fst) := by
  obtain ⟨stop?, hend, hbehind⟩ := numeralEnd?_decimal text
  obtain ⟨front?, hfront, hrest⟩ := numeral?_of_numeralEnd? hend hbehind
  exact ⟨front?, hfront, Decimal.finds_readDecimal?.longestIfAny hrest⟩

end Position

end LetterMachine
