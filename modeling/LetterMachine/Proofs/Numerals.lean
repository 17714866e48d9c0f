import LetterMachine.Proofs.AsciiText
import LetterMachine.Proofs.DecimalRounding
import LetterMachine.Value.Token
import Mathlib.Data.List.TakeWhile
import Mathlib.Logic.Relator

/-!
# Numerals at the front of a token

The numerals that a token is searched for are described by a grammar: an integer is a sign, which
may be missing, and digits; a number in decimal notation has a point among its digits or not, and
may have an exponent.  The reader goes through a token once and never goes back, so it is not
evident that it finds the longest front part that is a numeral.  `Finds` says what is needed for
that: what it finds is a numeral, and of a text that begins with a numeral it finds no less.
-/

namespace LetterMachine

/-! ## Longest front parts -/

section Longest

variable {α β : Type}

/-- A front part of a text that denotes something, and there is no longer one that does. -/
structure Longest (denotes : List α → β → Prop) (text front : List α) (meaning : β) : Prop where
  isPrefix : front <+: text
  denotes_front : denotes front meaning
  length_le : ∀ other meaning, other <+: text → denotes other meaning →
    other.length ≤ front.length

/-- No front part of a text denotes anything. -/
def DenotesNothing (denotes : List α → β → Prop) (text : List α) : Prop :=
  ∀ front meaning, front <+: text → ¬denotes front meaning

/-- The longest front part of a text that denotes something, and what it denotes, or neither. -/
inductive LongestIfAny (denotes : List α → β → Prop) (text : List α) :
    Option (List α) → Option β → Prop where
  | found {front : List α} {meaning : β} (hlongest : Longest denotes text front meaning) :
      LongestIfAny denotes text (some front) (some meaning)
  | missing (hnothing : DenotesNothing denotes text) : LongestIfAny denotes text none none

/-- A function that looks for the longest front part of a text that denotes something, and gives
what it denotes and the text behind it. -/
structure Finds (denotes : List α → β → Prop) (find? : List α → Option (β × List α)) : Prop where
  sound : ∀ {text meaning rest}, find? text = some (meaning, rest) →
    ∃ front, text = front ++ rest ∧ denotes front meaning
  /-- What is found of a text that begins with something is not less than that. -/
  complete : ∀ {front meaning}, denotes front meaning → ∀ rest,
    ∃ meaning' rest', find? (front ++ rest) = some (meaning', rest') ∧ rest' <:+ rest ∧
      (rest = [] → meaning' = meaning)

variable {denotes : List α → β → Prop} {find? : List α → Option (β × List α)}
  {text other front rest : List α} {front? front?' : Option (List α)} {meaning : β}
  {meaning? meaning?' : Option β}

theorem Longest.front_eq {front' : List α} {meaning' : β}
    (hfirst : Longest denotes text front meaning) (hsecond : Longest denotes text front' meaning') :
    front = front' := by
  have hlength : front.length = front'.length :=
    Nat.le_antisymm (hsecond.length_le front meaning hfirst.isPrefix hfirst.denotes_front)
      (hfirst.length_le front' meaning' hsecond.isPrefix hsecond.denotes_front)
  rw [List.prefix_iff_eq_take.mp hfirst.isPrefix, List.prefix_iff_eq_take.mp hsecond.isPrefix,
    hlength]

theorem LongestIfAny.front_eq (hfirst : LongestIfAny denotes text front? meaning?)
    (hsecond : LongestIfAny denotes text front?' meaning?') : front? = front?' := by
  cases hfirst with
  | missing hnothing =>
      cases hsecond with
      | missing => rfl
      | found hlongest => exact absurd hlongest.denotes_front (hnothing _ _ hlongest.isPrefix)
  | found hlongest =>
      cases hsecond with
      | missing hnothing => exact absurd hlongest.denotes_front (hnothing _ _ hlongest.isPrefix)
      | found hlongest' => rw [hlongest.front_eq hlongest']

/-- What is denoted is known from the front part alone. -/
theorem LongestIfAny.meaning_eq (hunique : Relator.RightUnique denotes)
    (hfirst : LongestIfAny denotes text front? meaning?)
    (hsecond : LongestIfAny denotes other front? meaning?') : meaning? = meaning?' := by
  cases hfirst with
  | missing =>
      cases hsecond with
      | missing => rfl
  | found hlongest =>
      cases hsecond with
      | found hlongest' => rw [hunique hlongest.denotes_front hlongest'.denotes_front]

theorem Finds.exact (hfinds : Finds denotes find?) (hdenotes : denotes front meaning) :
    find? front = some (meaning, []) := by
  obtain ⟨meaning', rest', hfind, hsuffix, hmeaning⟩ := hfinds.complete hdenotes []
  rwa [List.append_nil, List.suffix_nil.mp hsuffix, hmeaning rfl] at hfind

theorem Finds.rightUnique (hfinds : Finds denotes find?) : Relator.RightUnique denotes := by
  intro front meaning meaning' hfirst hsecond
  have hsame := (hfinds.exact hfirst).symm.trans (hfinds.exact hsecond)
  exact congrArg Prod.fst (Option.some.inj hsame)

theorem Finds.longest (hfinds : Finds denotes find?)
    (hfound : find? (front ++ rest) = some (meaning, rest)) :
    Longest denotes (front ++ rest) front meaning := by
  obtain ⟨front', hfront, hdenotes⟩ := hfinds.sound hfound
  obtain rfl := List.append_cancel_right hfront
  refine ⟨List.prefix_append front rest, hdenotes, ?_⟩
  rintro other meaning' ⟨behind, hbehind⟩ hdenotes'
  obtain ⟨found, left, hleft, hsuffix, -⟩ := hfinds.complete hdenotes' behind
  rw [hbehind, hfound] at hleft
  obtain ⟨rfl, rfl⟩ := Prod.mk.inj (Option.some.inj hleft)
  have hlengths := congrArg List.length hbehind
  have hle := hsuffix.length_le
  simp only [List.length_append] at hlengths
  omega

theorem Finds.denotesNothing (hfinds : Finds denotes find?) (hnone : find? text = none) :
    DenotesNothing denotes text := by
  rintro front meaning ⟨rest, rfl⟩ hdenotes
  obtain ⟨found, left, hfound, -⟩ := hfinds.complete hdenotes rest
  cases hnone.symm.trans hfound

theorem Finds.longestIfAny (hfinds : Finds denotes find?)
    (hfront : Option.Rel (fun front rest => text = front ++ rest) front?
      ((find? text).map Prod.snd)) :
    LongestIfAny denotes text front? ((find? text).map Prod.fst) := by
  cases hfound : find? text with
  | none =>
      rw [hfound] at hfront
      cases hfront
      exact .missing (hfinds.denotesNothing hfound)
  | some found =>
      rw [hfound] at hfront
      cases hfront with
      | some htext =>
          subst htext
          exact .found (hfinds.longest hfound)

end Longest

/-! ## The grammar -/

namespace Decimal

/-- A sign, which may be missing, and whether it is a minus sign. -/
inductive SignText : List Char → Bool → Prop where
  | missing : SignText [] false
  | plus : SignText ['+'] false
  | minus : SignText ['-'] true

def AllDigits (text : List Char) : Prop :=
  ∀ c ∈ text, c.isDigit = true

/-- An integer, with its value. -/
inductive IntegerText : List Char → Int → Prop where
  | mk {sign digits : List Char} {negative : Bool} (hsign : SignText sign negative)
      (hdigits : AllDigits digits) (hnonempty : digits ≠ []) :
      IntegerText (sign ++ digits) (signed negative (value digits))

/-- Digits with or without a point, all of them without the point, and the number of those behind
it. -/
inductive MantissaText : List Char → List Char → Nat → Prop where
  | whole {digits : List Char} (hdigits : AllDigits digits) (hnonempty : digits ≠ []) :
      MantissaText digits digits 0
  | pointed {whole fraction : List Char} (hwhole : AllDigits whole) (hnonempty : whole ≠ [])
      (hfraction : AllDigits fraction) :
      MantissaText (whole ++ '.' :: fraction) (whole ++ fraction) fraction.length
  | bare {fraction : List Char} (hfraction : AllDigits fraction) (hnonempty : fraction ≠ []) :
      MantissaText ('.' :: fraction) fraction fraction.length

/-- An exponent, which may be missing, with its value. -/
inductive PowerText : List Char → Int → Prop where
  | missing : PowerText [] 0
  | marked {mark : Char} {text : List Char} {power : Int} (hmark : mark = 'e' ∨ mark = 'E')
      (hpower : IntegerText text power) : PowerText (mark :: text) power

/-- The number `coefficient * 10 ^ exponent`, or its opposite. -/
structure Number where
  negative : Bool
  coefficient : Nat
  exponent : Int

/-- A number in decimal notation, with its value. -/
inductive DecimalText : List Char → Number → Prop where
  | mk {sign mantissa digits power : List Char} {negative : Bool} {places : Nat} {exponent : Int}
      (hsign : SignText sign negative) (hmantissa : MantissaText mantissa digits places)
      (hpower : PowerText power exponent) :
      DecimalText (sign ++ mantissa ++ power) ⟨negative, value digits, exponent - places⟩

/-! ## The reader, with what it leaves of the text -/

def readInteger? (text : List Char) : Option (Int × List Char) :=
  let (negative, rest) := splitSign text
  let (digits, rest) := spanDigits rest
  if digits.isEmpty then none else some (signed negative (value digits), rest)

def readPower (text : List Char) : Int × List Char :=
  match text with
  | 'e' :: rest | 'E' :: rest => (readInteger? rest).getD (0, text)
  | _ => (0, text)

/-- The digits before and behind a point, and what follows them. -/
def readMantissa (text : List Char) : (List Char × List Char) × List Char :=
  let (whole, rest) := spanDigits text
  let (fraction, rest) := spanFraction whole rest
  ((whole, fraction), rest)

def readDecimal? (text : List Char) : Option (Number × List Char) :=
  let (negative, rest) := splitSign text
  let ((whole, fraction), rest) := readMantissa rest
  if whole.isEmpty && fraction.isEmpty then none
  else
    let (power, rest) := readPower rest
    some (⟨negative, value (whole ++ fraction), power - fraction.length⟩, rest)

/-! ### Parts of a text -/

theorem spanDigits_append {digits : List Char} (hdigits : AllDigits digits) (rest : List Char) :
    spanDigits (digits ++ rest) = (digits ++ (spanDigits rest).1, (spanDigits rest).2) :=
  Prod.ext (List.takeWhile_append_of_pos hdigits) (List.dropWhile_append_of_pos hdigits)

theorem spanDigits_split (text : List Char) :
    text = (spanDigits text).1 ++ (spanDigits text).2 :=
  List.takeWhile_append_dropWhile.symm

theorem allDigits_spanDigits (text : List Char) : AllDigits (spanDigits text).1 :=
  fun _ hmem => List.mem_takeWhile_imp hmem

/-- Digits end at a character that is none. -/
theorem spanDigits_of_head {text : List Char} (hhead : ∀ c ∈ text.head?, c.isDigit = false) :
    spanDigits text = ([], text) := by
  cases text with
  | nil => rfl
  | cons c rest =>
      have hc : ¬c.isDigit = true := by simpa using hhead c rfl
      rw [spanDigits, List.takeWhile_cons_of_neg hc, List.dropWhile_cons_of_neg hc]

theorem exists_splitSign (text : List Char) :
    ∃ sign, text = sign ++ (splitSign text).2 ∧ SignText sign (splitSign text).1 := by
  unfold splitSign
  split
  · exact ⟨['-'], rfl, .minus⟩
  · exact ⟨['+'], rfl, .plus⟩
  · exact ⟨[], rfl, .missing⟩

/-- A sign is told from what may follow it. -/
theorem splitSign_append {sign rest : List Char} {negative : Bool} (hsign : SignText sign negative)
    (hrest : ∀ c ∈ rest.head?, c ≠ '-' ∧ c ≠ '+') :
    splitSign (sign ++ rest) = (negative, rest) := by
  cases hsign with
  | plus | minus => rfl
  | missing =>
      rw [List.nil_append]
      unfold splitSign
      split
      · exact absurd rfl (hrest '-' rfl).1
      · exact absurd rfl (hrest '+' rfl).2
      · rfl

theorem ne_sign_of_isDigit {c : Char} (hdigit : c.isDigit = true) : c ≠ '-' ∧ c ≠ '+' := by
  constructor
  all_goals
    rintro rfl
    cases hdigit

theorem splitSign_of_digits {sign digits : List Char} {negative : Bool}
    (hsign : SignText sign negative) (hdigits : AllDigits digits) (hnonempty : digits ≠ [])
    (rest : List Char) : splitSign (sign ++ (digits ++ rest)) = (negative, digits ++ rest) := by
  apply splitSign_append hsign
  obtain ⟨first, more, rfl⟩ := List.exists_cons_of_ne_nil hnonempty
  intro c hmem
  obtain rfl := Option.some.inj hmem
  exact ne_sign_of_isDigit (hdigits first List.mem_cons_self)

/-! ### Integers -/

theorem readInteger?_eq (text : List Char) :
    readInteger? text =
      if (spanDigits (splitSign text).2).1 = [] then none
      else some (signed (splitSign text).1 (value (spanDigits (splitSign text).2).1),
        (spanDigits (splitSign text).2).2) := by
  simp only [readInteger?, List.isEmpty_iff]

theorem readInteger?_append {sign digits : List Char} {negative : Bool}
    (hsign : SignText sign negative) (hdigits : AllDigits digits) (hnonempty : digits ≠ [])
    (rest : List Char) :
    readInteger? (sign ++ digits ++ rest) =
      some (signed negative (value (digits ++ (spanDigits rest).1)), (spanDigits rest).2) := by
  have hnonempty' : digits ++ (spanDigits rest).1 ≠ [] :=
    List.append_ne_nil_of_left_ne_nil hnonempty _
  rw [List.append_assoc, readInteger?_eq, splitSign_of_digits hsign hdigits hnonempty,
    spanDigits_append hdigits, if_neg hnonempty']

theorem finds_readInteger? : Finds IntegerText readInteger? where
  sound := by
    intro text meaning rest hfound
    obtain ⟨sign, htext, hsign⟩ := exists_splitSign text
    have hdigits := allDigits_spanDigits (splitSign text).2
    have hsplit := spanDigits_split (splitSign text).2
    rw [readInteger?_eq, Option.ite_none_left_eq_some] at hfound
    obtain ⟨hnonempty, hfound⟩ := hfound
    obtain ⟨rfl, rfl⟩ := Prod.mk.inj (Option.some.inj hfound)
    refine ⟨_, ?_, .mk hsign hdigits hnonempty⟩
    rw [List.append_assoc, ← hsplit, ← htext]
  complete := by
    intro front meaning hdenotes rest
    obtain @⟨sign, digits, negative, hsign, hdigits, hnonempty⟩ := hdenotes
    refine ⟨_, _, readInteger?_append hsign hdigits hnonempty rest, List.dropWhile_suffix _, ?_⟩
    rintro rfl
    rw [spanDigits_of_head (by simp), List.append_nil]

/-! ### Digits and a point -/

/-- A point is read if there are digits on one of its sides. -/
theorem spanFraction_of_point {whole rest : List Char}
    (hdigits : ¬(whole = [] ∧ (spanDigits rest).1 = [])) :
    spanFraction whole ('.' :: rest) = spanDigits rest := by
  have hnonempty : ¬(whole.isEmpty && (spanDigits rest).1.isEmpty) = true := by
    simpa using hdigits
  simp only [spanFraction, if_neg hnonempty]

/-- What is not read begins no fraction. -/
theorem spanFraction_cases (whole text : List Char) :
    (∃ rest, text = '.' :: rest ∧ ¬(whole = [] ∧ (spanDigits rest).1 = []) ∧
      spanFraction whole text = spanDigits rest) ∨ spanFraction whole text = ([], text) := by
  unfold spanFraction
  split
  · rename_i rest
    by_cases hdigits : whole = [] ∧ (spanDigits rest).1 = []
    · right
      simp [hdigits]
    · left
      exact ⟨rest, rfl, hdigits, spanFraction_of_point hdigits⟩
  · exact Or.inr rfl

theorem spanFraction_of_head {whole text : List Char} (hhead : ∀ c ∈ text.head?, c ≠ '.') :
    spanFraction whole text = ([], text) := by
  rcases spanFraction_cases whole text with ⟨rest, rfl, -⟩ | hnone
  · exact absurd rfl (hhead '.' rfl)
  · exact hnone

theorem spanFraction_suffix (whole text : List Char) : (spanFraction whole text).2 <:+ text := by
  rcases spanFraction_cases whole text with ⟨rest, rfl, -, hspan⟩ | hnone
  · rw [hspan]
    exact (List.dropWhile_suffix _).trans (List.suffix_cons _ _)
  · exact ⟨[], congrArg Prod.snd hnone⟩

/-- What is read of a mantissa is one. -/
theorem exists_mantissa {text whole fraction rest : List Char}
    (hread : readMantissa text = ((whole, fraction), rest))
    (hnonempty : ¬(whole = [] ∧ fraction = [])) :
    ∃ mantissa, text = mantissa ++ rest ∧
      MantissaText mantissa (whole ++ fraction) fraction.length := by
  have hdigits := allDigits_spanDigits text
  have hsplit := spanDigits_split text
  rw [readMantissa] at hread
  generalize spanDigits text = found at hread hdigits hsplit
  obtain ⟨before, behind⟩ := found
  rcases spanFraction_cases before behind with ⟨more, hpoint, -, hspan⟩ | hnone
  · have hmore := allDigits_spanDigits more
    have hsplit' := spanDigits_split more
    simp only [hspan] at hread
    cases hread
    refine ⟨whole ++ '.' :: (spanDigits more).1, ?_, ?_⟩
    · rw [List.append_assoc, List.cons_append, ← hsplit', ← hpoint, ← hsplit]
    · by_cases hempty : whole = []
      · subst hempty
        exact .bare hmore fun hfraction => hnonempty ⟨rfl, hfraction⟩
      · exact .pointed hdigits hempty hmore
  · simp only [hnone] at hread
    cases hread
    refine ⟨whole, hsplit, ?_⟩
    rw [List.append_nil]
    exact .whole hdigits fun hempty => hnonempty ⟨hempty, rfl⟩

/-- Of a text that begins with a mantissa, no less is read, and no more if no digit and no point
follows. -/
structure ReadsMantissa (mantissa digits : List Char) (places : Nat) (rest : List Char) : Prop where
  reads : ∃ whole fraction rest', readMantissa (mantissa ++ rest) = ((whole, fraction), rest') ∧
    ¬(whole = [] ∧ fraction = []) ∧ rest' <:+ rest
  stops : (∀ c ∈ rest.head?, c.isDigit = false ∧ c ≠ '.') →
    ∃ whole fraction, readMantissa (mantissa ++ rest) = ((whole, fraction), rest) ∧
      whole ++ fraction = digits ∧ fraction.length = places

theorem readsMantissa_point {whole fraction : List Char} (hwhole : AllDigits whole)
    (hfraction : AllDigits fraction) (hnonempty : ¬(whole = [] ∧ fraction = []))
    (rest : List Char) :
    ReadsMantissa (whole ++ '.' :: fraction) (whole ++ fraction) fraction.length rest := by
  have hread : readMantissa (whole ++ '.' :: fraction ++ rest) =
      ((whole, fraction ++ (spanDigits rest).1), (spanDigits rest).2) := by
    have hpoint : spanDigits ('.' :: (fraction ++ rest)) = ([], '.' :: (fraction ++ rest)) :=
      spanDigits_of_head (by simp)
    have hspan := spanDigits_append hfraction rest
    have hdigits : ¬(whole = [] ∧ (spanDigits (fraction ++ rest)).1 = []) := by
      rw [hspan, List.append_eq_nil_iff]
      exact fun hempty => hnonempty ⟨hempty.1, hempty.2.1⟩
    rw [readMantissa, List.append_assoc, List.cons_append, spanDigits_append hwhole, hpoint]
    simp only [List.append_nil, spanFraction_of_point hdigits, hspan]
  constructor
  · refine ⟨_, _, _, hread, ?_, List.dropWhile_suffix _⟩
    rw [List.append_eq_nil_iff]
    exact fun hempty => hnonempty ⟨hempty.1, hempty.2.1⟩
  · intro hstops
    rw [spanDigits_of_head fun c hmem => (hstops c hmem).1, List.append_nil] at hread
    exact ⟨_, _, hread, rfl, rfl⟩

theorem readsMantissa_whole {digits : List Char} (hdigits : AllDigits digits)
    (hnonempty : digits ≠ []) (rest : List Char) : ReadsMantissa digits digits 0 rest := by
  have hread : readMantissa (digits ++ rest) =
      ((digits ++ (spanDigits rest).1,
        (spanFraction (digits ++ (spanDigits rest).1) (spanDigits rest).2).1),
        (spanFraction (digits ++ (spanDigits rest).1) (spanDigits rest).2).2) := by
    rw [readMantissa, spanDigits_append hdigits]
  constructor
  · refine ⟨_, _, _, hread, ?_, (spanFraction_suffix _ _).trans (List.dropWhile_suffix _)⟩
    rw [List.append_eq_nil_iff]
    exact fun hempty => hnonempty hempty.1.1
  · intro hstops
    rw [spanDigits_of_head fun c hmem => (hstops c hmem).1,
      spanFraction_of_head fun c hmem => (hstops c hmem).2, List.append_nil] at hread
    exact ⟨_, _, hread, List.append_nil _, rfl⟩

theorem readsMantissa {mantissa digits : List Char} {places : Nat}
    (hmantissa : MantissaText mantissa digits places) (rest : List Char) :
    ReadsMantissa mantissa digits places rest := by
  cases hmantissa with
  | whole hdigits hnonempty => exact readsMantissa_whole hdigits hnonempty rest
  | pointed hwhole hnonempty hfraction =>
      exact readsMantissa_point hwhole hfraction (fun hempty => hnonempty hempty.1) rest
  | bare hfraction hnonempty =>
      have hwhole : AllDigits [] := List.forall_mem_nil _
      exact readsMantissa_point hwhole hfraction (fun hempty => hnonempty hempty.2) rest

/-! ### Exponents and whole numbers -/

theorem readPower_of_mark {mark : Char} (hmark : mark = 'e' ∨ mark = 'E') (text : List Char) :
    readPower (mark :: text) = (readInteger? text).getD (0, mark :: text) := by
  rcases hmark with rfl | rfl <;> rfl

theorem readPower_of_head {text : List Char} (hhead : ∀ c ∈ text.head?, ¬(c = 'e' ∨ c = 'E')) :
    readPower text = (0, text) := by
  unfold readPower
  split
  · exact absurd (Or.inl rfl) (hhead 'e' rfl)
  · exact absurd (Or.inr rfl) (hhead 'E' rfl)
  · rfl

/-- What is read of an exponent is one. -/
theorem exists_power (text : List Char) :
    ∃ power, text = power ++ (readPower text).2 ∧ PowerText power (readPower text).1 := by
  have hmissing : readPower text = (0, text) →
      ∃ power, text = power ++ (readPower text).2 ∧ PowerText power (readPower text).1 := by
    intro hread
    rw [hread]
    exact ⟨[], rfl, .missing⟩
  cases text with
  | nil => exact hmissing rfl
  | cons mark text =>
      by_cases hmark : mark = 'e' ∨ mark = 'E'
      · have hread := readPower_of_mark hmark text
        cases hfound : readInteger? text with
        | none =>
            rw [hfound] at hread
            exact hmissing hread
        | some found =>
            obtain ⟨front, htext, hdenotes⟩ := finds_readInteger?.sound hfound
            rw [hread, hfound]
            refine ⟨mark :: front, ?_, .marked hmark hdenotes⟩
            rw [List.cons_append, Option.getD_some, ← htext]
      · exact hmissing (readPower_of_head (by simpa using hmark))

theorem readPower_suffix (text : List Char) : (readPower text).2 <:+ text := by
  obtain ⟨power, htext, -⟩ := exists_power text
  exact ⟨power, htext.symm⟩

theorem readPower_append {mark : Char} {text : List Char} {power : Int}
    (hmark : mark = 'e' ∨ mark = 'E') (hpower : IntegerText text power) (rest : List Char) :
    (readPower (mark :: text ++ rest)).2 <:+ rest ∧
      (rest = [] → (readPower (mark :: text ++ rest)).1 = power) := by
  obtain ⟨power', rest', hread, hsuffix, hmeaning⟩ := finds_readInteger?.complete hpower rest
  rw [List.cons_append, readPower_of_mark hmark, hread]
  exact ⟨hsuffix, hmeaning⟩

theorem readDecimal?_eq {text behind whole fraction rest : List Char} {negative : Bool}
    (hsign : splitSign text = (negative, behind))
    (hmantissa : readMantissa behind = ((whole, fraction), rest))
    (hnonempty : ¬(whole = [] ∧ fraction = [])) :
    readDecimal? text =
      some (⟨negative, value (whole ++ fraction), (readPower rest).1 - fraction.length⟩,
        (readPower rest).2) := by
  have hnonempty' : ¬(whole.isEmpty && fraction.isEmpty) = true := by simpa using hnonempty
  simp only [readDecimal?, hsign, hmantissa, if_neg hnonempty']

theorem MantissaText.ne_nil {mantissa digits : List Char} {places : Nat}
    (hmantissa : MantissaText mantissa digits places) : digits ≠ [] := by
  cases hmantissa with
  | whole _ hnonempty | bare _ hnonempty => exact hnonempty
  | pointed _ hnonempty => exact List.append_ne_nil_of_left_ne_nil hnonempty _

theorem splitSign_of_mantissa {sign mantissa digits : List Char} {negative : Bool} {places : Nat}
    (hsign : SignText sign negative) (hmantissa : MantissaText mantissa digits places)
    (rest : List Char) : splitSign (sign ++ (mantissa ++ rest)) = (negative, mantissa ++ rest) := by
  cases hmantissa with
  | whole hdigits hnonempty => exact splitSign_of_digits hsign hdigits hnonempty rest
  | pointed hwhole hnonempty =>
      rw [List.append_assoc]
      exact splitSign_of_digits hsign hwhole hnonempty _
  | bare => exact splitSign_append hsign (by simp)

section DecimalNotation

variable {sign mantissa digits : List Char} {negative : Bool} {places : Nat}
  (hsign : SignText sign negative) (hmantissa : MantissaText mantissa digits places)

include hsign hmantissa

/-- A mantissa that neither a digit nor a point follows is read as it is. -/
theorem readDecimal?_of_stops {rest : List Char}
    (hstops : ∀ c ∈ rest.head?, c.isDigit = false ∧ c ≠ '.') :
    readDecimal? (sign ++ mantissa ++ rest) =
      some (⟨negative, value digits, (readPower rest).1 - places⟩, (readPower rest).2) := by
  obtain ⟨whole, fraction, hread, hdigits, hplaces⟩ := (readsMantissa hmantissa rest).stops hstops
  have hnonempty : ¬(whole = [] ∧ fraction = []) := by
    rw [← List.append_eq_nil_iff, hdigits]
    exact hmantissa.ne_nil
  rw [List.append_assoc,
    readDecimal?_eq (splitSign_of_mantissa hsign hmantissa rest) hread hnonempty, hdigits, hplaces]

theorem readDecimal?_suffix (rest : List Char) :
    ∃ meaning rest', readDecimal? (sign ++ mantissa ++ rest) = some (meaning, rest') ∧
      rest' <:+ rest := by
  obtain ⟨whole, fraction, behind, hread, hnonempty, hsuffix⟩ :=
    (readsMantissa hmantissa rest).reads
  rw [List.append_assoc,
    readDecimal?_eq (splitSign_of_mantissa hsign hmantissa rest) hread hnonempty]
  exact ⟨_, _, rfl, (readPower_suffix behind).trans hsuffix⟩

end DecimalNotation

theorem finds_readDecimal? : Finds DecimalText readDecimal? where
  sound := by
    intro text meaning rest hfound
    obtain ⟨sign, htext, hsign⟩ := exists_splitSign text
    rw [readDecimal?] at hfound
    generalize splitSign text = split at hfound htext hsign
    obtain ⟨negative, behind⟩ := split
    rcases hmantissa : readMantissa behind with ⟨⟨whole, fraction⟩, more⟩
    simp only [hmantissa, Option.ite_none_left_eq_some, Bool.and_eq_true,
      List.isEmpty_iff] at hfound
    obtain ⟨hnonempty, hfound⟩ := hfound
    obtain ⟨mantissa, hbehind, hmantissa⟩ := exists_mantissa hmantissa hnonempty
    obtain ⟨power, hmore, hpower⟩ := exists_power more
    cases hfound
    refine ⟨_, ?_, .mk hsign hmantissa hpower⟩
    rw [List.append_assoc, List.append_assoc, ← hmore, ← hbehind, ← htext]
  complete := by
    intro front meaning hdenotes rest
    obtain @⟨sign, mantissa, digits, power, negative, places, exponent, hsign, hmantissa, hpower⟩ :=
      hdenotes
    rw [List.append_assoc]
    cases hpower with
    | marked hmark hpower =>
        obtain ⟨hsuffix, hmeaning⟩ := readPower_append hmark hpower rest
        refine ⟨_, _, readDecimal?_of_stops hsign hmantissa ?_, hsuffix, ?_⟩
        · rcases hmark with rfl | rfl <;> simp
        · intro hrest
          rw [hmeaning hrest]
    | missing =>
        -- More digits may follow here, unless the text ends.
        by_cases hrest : rest = []
        · subst hrest
          refine ⟨_, _, readDecimal?_of_stops hsign hmantissa (by simp), List.suffix_rfl, ?_⟩
          exact fun _ => rfl
        · obtain ⟨meaning, rest', hread, hsuffix⟩ := readDecimal?_suffix hsign hmantissa rest
          exact ⟨meaning, rest', hread, hsuffix, fun hnil => absurd hnil hrest⟩

/-! ### The reader of tokens -/

theorem getD_readInteger? (text missed : List Char) :
    ((readInteger? text).getD (0, missed)).1 =
      signed (splitSign text).1 (value (spanDigits (splitSign text).2).1) := by
  rw [readInteger?_eq]
  split
  · rename_i hempty
    rw [hempty]
    cases (splitSign text).1 <;> rfl
  · rfl

theorem leadingPower_eq (text : List Char) : leadingPower text = (readPower text).1 := by
  unfold readPower
  split
  · exact (getD_readInteger? _ _).symm
  · exact (getD_readInteger? _ _).symm
  · unfold leadingPower
    split <;> simp_all

end Decimal

namespace Value

theorem leadingInteger?_eq (token : List Char) :
    leadingInteger? token = (Decimal.readInteger? token).bind fun found => ofInt? found.1 := by
  simp only [leadingInteger?, Decimal.readInteger?]
  split <;> rfl

theorem leadingDecimal?_eq (token : List Char) :
    leadingDecimal? token = (Decimal.readDecimal? token).map fun found =>
      ofBinary64 (.ofDecimal found.1.negative found.1.coefficient found.1.exponent) := by
  rcases hsign : Decimal.splitSign token with ⟨negative, behind⟩
  rcases hwhole : Decimal.spanDigits behind with ⟨whole, rest⟩
  rcases hfraction : Decimal.spanFraction whole rest with ⟨fraction, rest'⟩
  simp only [leadingDecimal?, Decimal.readDecimal?, Decimal.readMantissa, Decimal.leadingPower_eq,
    hsign, hwhole, hfraction]
  cases whole.isEmpty && fraction.isEmpty <;> rfl

end Value

end LetterMachine
