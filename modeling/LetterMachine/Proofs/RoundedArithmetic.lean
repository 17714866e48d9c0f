import LetterMachine.Proofs.NearestDoubles

/-!
# Arithmetic that is exact but for one rounding

The operations on doubles, without reference to how doubles are held: on rational numbers, with
infinities and with zeros that have a sign.  Each operation of the machine gives what its result
there is rounded to, and each comparison compares the exact numbers.
-/

namespace LetterMachine

/-- A result of arithmetic before it is rounded.  The sign of a finite one is that of a zero, and
that of every operand. -/
inductive Extended where
  | nan
  | infinite (negative : Bool)
  | finite (value : ℚ) (negative : Bool)

namespace Extended

def neg : Extended → Extended
  | .nan => .nan
  | .infinite negative => .infinite !negative
  | .finite value negative => .finite (-value) !negative

def add : Extended → Extended → Extended
  | .infinite left, .infinite right => if left = right then .infinite left else .nan
  | .infinite left, .finite _ _ => .infinite left
  | .finite _ _, .infinite right => .infinite right
  | .finite left leftNegative, .finite right rightNegative =>
    .finite (left + right) (leftNegative && rightNegative)
  | _, _ => .nan

def sub (left right : Extended) : Extended :=
  left.add right.neg

def mul : Extended → Extended → Extended
  | .infinite left, .infinite right => .infinite (left != right)
  | .infinite left, .finite right rightNegative =>
    if right = 0 then .nan else .infinite (left != rightNegative)
  | .finite left leftNegative, .infinite right =>
    if left = 0 then .nan else .infinite (leftNegative != right)
  | .finite left leftNegative, .finite right rightNegative =>
    .finite (left * right) (leftNegative != rightNegative)
  | _, _ => .nan

def div : Extended → Extended → Extended
  | .infinite left, .finite _ rightNegative => .infinite (left != rightNegative)
  | .finite _ leftNegative, .infinite right => .finite 0 (leftNegative != right)
  | .finite left leftNegative, .finite right rightNegative =>
    if right = 0 then if left = 0 then .nan else .infinite (leftNegative != rightNegative)
    else .finite (left / right) (leftNegative != rightNegative)
  | _, _ => .nan

/-- What is left of the dividend after as many whole divisors as there are in it. -/
def rem : Extended → Extended → Extended
  | .finite left leftNegative, .infinite _ => .finite left leftNegative
  | .finite left leftNegative, .finite right _ =>
    if right = 0 then .nan else .finite (left - right * truncated (left / right)) leftNegative
  | _, _ => .nan

/-- The place in the order, which both zeros share. -/
def place? : Extended → Option (WithBot (WithTop ℚ))
  | .nan => none
  | .infinite negative => some (if negative then ⊥ else ((⊤ : WithTop ℚ) : WithBot (WithTop ℚ)))
  | .finite value _ => some ((value : WithTop ℚ) : WithBot (WithTop ℚ))

/-- What a result is rounded to.  Any double that is no number stands for a result that is none. -/
inductive RoundsTo : Extended → Binary64 → Prop where
  | nan (negative : Bool) (payload : Binary64.Payload) : RoundsTo .nan (.nan negative payload)
  | infinite (negative : Bool) : RoundsTo (.infinite negative) (.infinite negative)
  | finite {value : ℚ} {negative : Bool} {number : Binary64}
      (hrounds : number.RoundsTo value negative) : RoundsTo (.finite value negative) number

end Extended

namespace Binary64

/-- A double as an operand. -/
def extended : Binary64 → Extended
  | .nan .. => .nan
  | .infinite negative => .infinite negative
  | .finite negative magnitude => .finite (signedUnits negative magnitude / one) negative

theorem extended_neg (number : Binary64) : number.neg.extended = number.extended.neg := by
  cases number with
  | nan | infinite => rfl
  | finite negative magnitude =>
      have hunits : signedUnits (!negative) magnitude = -signedUnits negative magnitude := by
        cases negative <;> simp [signedUnits]
      rw [neg, extended, extended, Extended.neg, hunits, Int.cast_neg, neg_div]

/-! ## Numbers with a sign -/

theorem signed_eq_zero_iff {negative : Bool} {absolute : ℚ} :
    signed negative absolute = 0 ↔ absolute = 0 := by
  rw [← abs_eq_zero, abs_signed, abs_eq_zero]

theorem signed_mul_signed (first second : Bool) (left right : ℚ) :
    signed first left * signed second right = signed (first != second) (left * right) := by
  cases first <;> cases second <;> simp [signed]

theorem signed_div_signed (first second : Bool) (left right : ℚ) :
    signed first left / signed second right = signed (first != second) (left / right) := by
  cases first <;> cases second <;> simp [signed, neg_div, div_neg]

theorem signedUnits_div_one_eq_zero_iff {negative : Bool} {magnitude : Magnitude} :
    (signedUnits negative magnitude / one : ℚ) = 0 ↔ magnitude.units = 0 := by
  have hone : (one : ℚ) ≠ 0 := by exact_mod_cast one_pos.ne'
  rw [signedUnits_div_one, signed_eq_zero_iff, div_eq_zero_iff, or_iff_left hone]
  exact Nat.cast_eq_zero

/-- A fraction of units with a sign is rounded to the double with that sign. -/
theorem roundsTo_of_signed {exact : ℚ} {negative : Bool} {numerator denominator : ℕ}
    (hpos : 0 < denominator)
    (hexact : exact = signed negative ((numerator : ℚ) / denominator / one)) :
    (ofUnits negative numerator denominator).RoundsTo exact negative := by
  have hnonneg : (0 : ℚ) ≤ (numerator : ℚ) / denominator / one :=
    div_nonneg (div_nonneg (Nat.cast_nonneg _) (Nat.cast_nonneg _)) (Nat.cast_nonneg _)
  apply roundsTo_ofUnits hpos
  · rw [hexact, abs_signed, abs_of_nonneg hnonneg]
  · rw [hexact]
    split
    · rfl
    · rename_i hnonzero
      have hpositive := hnonneg.lt_of_ne' (signed_eq_zero_iff.not.mp hnonzero)
      cases negative
      · exact (decide_eq_false hpositive.not_gt).symm
      · exact (decide_eq_true (neg_neg_of_pos hpositive)).symm

/-- A whole number of units has its own sign, but for zero. -/
theorem roundsTo_of_units (units : ℤ) (zeroSign : Bool) :
    (ofUnits (if units = 0 then zeroSign else decide (units < 0)) units.natAbs 1).RoundsTo
      (units / one) zeroSign := by
  have hone : (0 : ℚ) < one := by exact_mod_cast one_pos
  apply roundsTo_ofUnits Nat.one_pos
  · rw [abs_div, abs_of_pos hone, Nat.cast_one, div_one, Nat.cast_natAbs, Int.cast_abs]
  · have hzero : (units / one : ℚ) = 0 ↔ units = 0 := by
      rw [div_eq_zero_iff, or_iff_left hone.ne', Int.cast_eq_zero]
    have hless : (units / one : ℚ) < 0 ↔ units < 0 := by
      rw [div_lt_iff₀ hone, zero_mul]
      exact Int.cast_lt_zero
    simp only [hzero, hless]

/-- A double is rounded to itself. -/
theorem roundsTo_self (negative : Bool) (magnitude : Magnitude) :
    (Binary64.finite negative magnitude).RoundsTo (signedUnits negative magnitude / one)
      negative := by
  rw [← ofUnits_of_onGrid negative magnitude.onGrid magnitude.inRange]
  apply roundsTo_of_signed Nat.one_pos
  rw [signedUnits_div_one, Nat.cast_one, div_one]

theorem roundsTo_zero (negative : Bool) : (zero negative).RoundsTo 0 negative := by
  unfold zero
  apply roundsTo_of_signed Nat.one_pos
  rw [Nat.cast_zero, zero_div, zero_div]
  cases negative <;> simp [signed]

/-- An integer is rounded to a double, and there is no negative zero among them. -/
theorem roundsTo_ofInt (number : ℤ) : (ofInt number).RoundsTo number false := by
  have hone : (0 : ℚ) < one := by exact_mod_cast one_pos
  apply roundsTo_ofUnits Nat.one_pos
  · rw [Nat.cast_mul, Nat.cast_one, div_one, mul_div_cancel_right₀ _ hone.ne', Nat.cast_natAbs,
      Int.cast_abs]
  · by_cases hzero : number = 0
    · simp [hzero]
    · simp [hzero]

/-- A whole number of divisors is taken away, and the sign of the dividend stays. -/
theorem signed_sub_truncated (first second : Bool) (left : ℕ) {right : ℕ} (hpos : 0 < right) :
    signed first (left / one) - signed second (right / one) *
        truncated (signed first (left / one) / signed second (right / one)) =
      signed first (((left % right : ℕ) : ℚ) / one) := by
  have hone : (one : ℚ) ≠ 0 := by exact_mod_cast one_pos.ne'
  have hquotient : signed first (left / one) / signed second (right / one) =
      (Decimal.signed (first != second) left : ℤ) / (right : ℚ) := by
    rw [signed_div_signed, div_div_div_cancel_right₀ hone]
    cases first <;> cases second <;> simp [signed, Decimal.signed, neg_div]
  have hdivision : (left : ℚ) = right * ((left / right : ℕ) : ℚ) + ((left % right : ℕ) : ℚ) := by
    exact_mod_cast (Nat.div_add_mod left right).symm
  rw [hquotient, truncated_div _ hpos]
  have htdiv : (Decimal.signed (first != second) left).tdiv right =
      Decimal.signed (first != second) (left / right) := by
    cases first != second
    · rfl
    · simp only [Decimal.signed, if_true, Int.neg_tdiv]
      rfl
  rw [htdiv, hdivision]
  generalize left / right = quotient
  generalize left % right = rest
  generalize (one : ℚ) = scale
  cases first <;> cases second <;> simp [signed, Decimal.signed] <;> ring

/-! ## Operations -/

open Extended (RoundsTo)

section Operations

variable (left right : Binary64)

theorem add_rounds : (left.extended.add right.extended).RoundsTo (left.add right) := by
  cases left with
  | nan => exact .nan ..
  | infinite a =>
      cases right with
      | nan => exact .nan ..
      | infinite b =>
          by_cases hsame : a = b
          · simp only [extended, Extended.add, add, if_pos hsame]
            exact .infinite a
          · simp only [extended, Extended.add, add, if_neg hsame]
            exact .nan ..
      | finite => exact .infinite a
  | finite a x =>
      cases right with
      | nan => exact .nan ..
      | infinite b => exact .infinite b
      | finite b y =>
          have hrounds := roundsTo_of_units (signedUnits a x + signedUnits b y) (a && b)
          rw [Int.cast_add, add_div] at hrounds
          exact .finite hrounds

theorem sub_rounds : (left.extended.sub right.extended).RoundsTo (left.sub right) := by
  rw [Extended.sub, ← extended_neg]
  exact add_rounds left right.neg

theorem mul_rounds : (left.extended.mul right.extended).RoundsTo (left.mul right) := by
  cases left with
  | nan => exact .nan ..
  | infinite a =>
      cases right with
      | nan => exact .nan ..
      | infinite b => exact .infinite _
      | finite b y =>
          simp only [extended, Extended.mul, mul, signedUnits_div_one_eq_zero_iff]
          split
          · exact .nan ..
          · exact .infinite _
  | finite a x =>
      cases right with
      | nan => exact .nan ..
      | infinite b =>
          simp only [extended, Extended.mul, mul, signedUnits_div_one_eq_zero_iff]
          split
          · exact .nan ..
          · exact .infinite _
      | finite b y =>
          refine .finite (roundsTo_of_signed one_pos ?_)
          rw [signedUnits_div_one, signedUnits_div_one, signed_mul_signed, div_mul_div_comm,
            Nat.cast_mul, div_div]

theorem div_rounds : (left.extended.div right.extended).RoundsTo (left.div right) := by
  have hone : (one : ℚ) ≠ 0 := by exact_mod_cast one_pos.ne'
  cases left with
  | nan => exact .nan ..
  | infinite a =>
      cases right with
      | nan | infinite => exact .nan ..
      | finite b y => exact .infinite _
  | finite a x =>
      cases right with
      | nan => exact .nan ..
      | infinite b =>
          exact .finite (roundsTo_zero _)
      | finite b y =>
          simp only [extended, Extended.div, div, signedUnits_div_one_eq_zero_iff]
          split
          · split
            · exact .nan ..
            · exact .infinite _
          · rename_i hnonzero
            refine .finite (roundsTo_of_signed (Nat.pos_of_ne_zero hnonzero) ?_)
            rw [signedUnits_div_one, signedUnits_div_one, signed_div_signed,
              div_div_div_cancel_right₀ hone, Nat.cast_mul, div_right_comm,
              mul_div_cancel_right₀ _ hone]

theorem rem_rounds : (left.extended.rem right.extended).RoundsTo (left.rem right) := by
  have hone : (one : ℚ) ≠ 0 := by exact_mod_cast one_pos.ne'
  cases left with
  | nan => exact .nan ..
  | infinite a => cases right <;> exact .nan ..
  | finite a x =>
      cases right with
      | nan => exact .nan ..
      | infinite b => exact .finite (roundsTo_self a x)
      | finite b y =>
          simp only [extended, Extended.rem, rem, signedUnits_div_one_eq_zero_iff]
          split
          · exact .nan ..
          · rename_i hnonzero
            refine .finite (roundsTo_of_signed Nat.one_pos ?_)
            rw [signedUnits_div_one, signedUnits_div_one, signed_sub_truncated _ _ _
              (Nat.pos_of_ne_zero hnonzero), Nat.cast_one, div_one]

end Operations

/-! ## Comparisons -/

theorem abs_signedUnits_lt (negative : Bool) (magnitude : Magnitude) :
    |signedUnits negative magnitude| < rangeLimit := by
  rw [Int.abs_eq_natAbs, natAbs_signedUnits]
  exact_mod_cast magnitude.inRange

/-- The rank of a place, which for a number is the count of its units. -/
inductive Ranks : ℤ → WithBot (WithTop ℚ) → Prop where
  | bottom : Ranks (-(rangeLimit : ℤ)) ⊥
  | finite {units : ℤ} (hunits : |units| < rangeLimit) :
      Ranks units (((units / one : ℚ) : WithTop ℚ) : WithBot (WithTop ℚ))
  | top : Ranks rangeLimit ((⊤ : WithTop ℚ) : WithBot (WithTop ℚ))

theorem Ranks.lt_iff {left right : ℤ} {leftPlace rightPlace : WithBot (WithTop ℚ)}
    (hleft : Ranks left leftPlace) (hright : Ranks right rightPlace) :
    left < right ↔ leftPlace < rightPlace := by
  have hlimit : (0 : ℤ) < rangeLimit := by
    unfold rangeLimit
    exact_mod_cast Nat.two_pow_pos 2098
  have hone : (0 : ℚ) < one := by exact_mod_cast one_pos
  cases hleft with
  | bottom =>
      cases hright with
      | bottom => exact iff_of_false (lt_irrefl _) (lt_irrefl _)
      | finite hunits => exact iff_of_true (neg_lt_of_abs_lt hunits) (WithBot.bot_lt_coe _)
      | top => exact iff_of_true (by linarith) (WithBot.bot_lt_coe _)
  | finite hunits =>
      cases hright with
      | bottom => exact iff_of_false (neg_lt_of_abs_lt hunits).not_gt not_lt_bot
      | finite =>
          rw [WithBot.coe_lt_coe, WithTop.coe_lt_coe, div_lt_div_iff_of_pos_right hone]
          exact Int.cast_lt.symm
      | top =>
          exact iff_of_true (lt_of_abs_lt hunits) (WithBot.coe_lt_coe.mpr (WithTop.coe_lt_top _))
  | top =>
      cases hright with
      | bottom => exact iff_of_false (by linarith) not_lt_bot
      | finite hunits =>
          exact iff_of_false (lt_of_abs_lt hunits).not_gt
            (fun hlt => not_top_lt (WithBot.coe_lt_coe.mp hlt))
      | top => exact iff_of_false (lt_irrefl _) (lt_irrefl _)

theorem Ranks.eq_iff {left right : ℤ} {leftPlace rightPlace : WithBot (WithTop ℚ)}
    (hleft : Ranks left leftPlace) (hright : Ranks right rightPlace) :
    left = right ↔ leftPlace = rightPlace := by
  rw [le_antisymm_iff, le_antisymm_iff, ← not_lt, ← not_lt, ← not_lt, ← not_lt,
    hleft.lt_iff hright, hright.lt_iff hleft]

/-- A double has a rank just if it has a place, and then it is the rank of that place. -/
theorem rank?_cases (number : Binary64) :
    (number.rank? = none ∧ number.extended.place? = none) ∨
      ∃ rank place, number.rank? = some rank ∧ number.extended.place? = some place ∧
        Ranks rank place := by
  cases number with
  | nan => exact .inl ⟨rfl, rfl⟩
  | infinite negative =>
      cases negative
      · exact .inr ⟨_, _, rfl, rfl, .top⟩
      · exact .inr ⟨_, _, rfl, rfl, .bottom⟩
  | finite negative magnitude =>
      exact .inr ⟨_, _, rfl, rfl, .finite (abs_signedUnits_lt negative magnitude)⟩

section Comparisons

variable (left right : Binary64)

theorem less_iff : left.less right = true ↔
    ∃ leftPlace ∈ left.extended.place?, ∃ rightPlace ∈ right.extended.place?,
      leftPlace < rightPlace := by
  unfold less
  rcases rank?_cases left with ⟨hrank, hplace⟩ | ⟨rank, place, hrank, hplace, hranks⟩
  · simp [hrank, hplace]
  · rcases rank?_cases right with ⟨hrank', hplace'⟩ | ⟨rank', place', hrank', hplace', hranks'⟩
    · simp [hrank, hrank', hplace']
    · simp [hrank, hrank', hplace, hplace', hranks.lt_iff hranks']

theorem equal_iff : left.equal right = true ↔
    ∃ leftPlace ∈ left.extended.place?, ∃ rightPlace ∈ right.extended.place?,
      leftPlace = rightPlace := by
  unfold equal
  rcases rank?_cases left with ⟨hrank, hplace⟩ | ⟨rank, place, hrank, hplace, hranks⟩
  · simp [hrank, hplace]
  · rcases rank?_cases right with ⟨hrank', hplace'⟩ | ⟨rank', place', hrank', hplace', hranks'⟩
    · simp [hrank, hrank', hplace']
    · simp only [hrank, hrank', hplace, hplace', beq_iff_eq, hranks.eq_iff hranks',
        Option.mem_some_iff, exists_eq_left']

end Comparisons

end Binary64

end LetterMachine
