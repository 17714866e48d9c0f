import LetterMachine.Binary64.Interchange

/-!
# Doubles and their encodings

A count of units that is on the grid is not changed by rounding.  So a decoded number is exactly the
significand of its encoding, moved up by its exponent, and the fields can be read off from the count
of units again: the spacing of the grid is the exponent, and the quotient by it the significand.
What is not a number keeps its fields as they are.  So every encoding is found again from what it
encodes.
-/

namespace LetterMachine.Binary64

/-! ## Counts of units that are not rounded -/

theorem nearestUnits_of_onGrid {units : Nat} (honGrid : OnGrid units) :
    nearestUnits units 1 = units := by
  obtain ⟨count, hcount⟩ := honGrid
  rw [nearestUnits, Nat.div_one, Nat.one_mul]
  generalize gridExponent units = exponent at hcount
  rw [hcount, roundDiv_mul_left _ (Nat.two_pow_pos exponent), Nat.mul_comm]

theorem ofUnits_of_onGrid (negative : Bool) {units : Nat} (honGrid : OnGrid units)
    (hrange : units < rangeLimit) :
    ofUnits negative units 1 = .finite negative ⟨units, honGrid, hrange⟩ := by
  simp only [ofUnits, nearestUnits_of_onGrid honGrid, dif_pos hrange]

/-! ## Significands -/

section Significand

variable {significand exponent : Nat}

/-- If only a significand with all its digits is moved up, the spacing shows how far. -/
theorem gridExponent_mul_two_pow (hsignificand : significand < 2 ^ precision)
    (hfull : 2 ^ fractionBits ≤ significand ∨ exponent = 0) :
    gridExponent (significand * 2 ^ exponent) = exponent := by
  rcases hfull with hfull | rfl
  · have hpositive : significand * 2 ^ exponent ≠ 0 :=
      Nat.mul_ne_zero (Nat.ne_of_gt (Nat.lt_of_lt_of_le (Nat.two_pow_pos _) hfull))
        (Nat.ne_of_gt (Nat.two_pow_pos exponent))
    have hlog : (significand * 2 ^ exponent).log2 = fractionBits + exponent := by
      rw [Nat.log2_eq_iff hpositive, Nat.add_right_comm, Nat.pow_add, Nat.pow_add]
      exact ⟨Nat.mul_le_mul_right _ hfull,
        Nat.mul_lt_mul_of_pos_right hsignificand (Nat.two_pow_pos exponent)⟩
    rw [gridExponent, hlog]
    exact Nat.add_sub_cancel_left ..
  · rw [Nat.pow_zero, Nat.mul_one, gridExponent]
    rcases Nat.eq_zero_or_pos significand with rfl | hpositive
    · rfl
    · have hlog := (Nat.log2_lt (Nat.ne_of_gt hpositive)).mpr hsignificand
      unfold precision at hlog ⊢
      omega

/-- The encoding of a number with this significand and this exponent. -/
theorem toBits_ofUnits (negative : Bool) (hsignificand : significand < 2 ^ precision)
    (hfull : 2 ^ fractionBits ≤ significand ∨ exponent = 0) (hexponent : exponent ≤ 2045) :
    (ofUnits negative (significand * 2 ^ exponent) 1).toBits =
      .ofNat (signBit negative + (exponent * 2 ^ fractionBits + significand)) := by
  have hplaces : precision + exponent ≤ 2098 := Nat.add_le_add_left hexponent 53
  have hrange : significand * 2 ^ exponent < rangeLimit := by
    calc significand * 2 ^ exponent
        < 2 ^ precision * 2 ^ exponent :=
          Nat.mul_lt_mul_of_pos_right hsignificand (Nat.two_pow_pos exponent)
      _ = 2 ^ (precision + exponent) := (Nat.pow_add ..).symm
      _ ≤ rangeLimit := by
          unfold rangeLimit
          generalize (2098 : Nat) = limit at hplaces ⊢
          exact Nat.pow_le_pow_right (by decide) hplaces
  rw [ofUnits_of_onGrid negative (onGrid_mul_two_pow (Nat.le_of_lt hsignificand) exponent) hrange]
  simp only [toBits, magnitudeBits, gridExponent_mul_two_pow hsignificand hfull,
    Nat.mul_div_cancel _ (Nat.two_pow_pos exponent)]

end Significand

/-! ## Encodings -/

/-- The three fields of an encoding make up all of it. -/
theorem signBit_add_fields (bits : UInt64) :
    signBit (decide (2 ^ (63 : Nat) ≤ bits.toNat)) +
      (bits.toNat / 2 ^ fractionBits % 2 ^ (11 : Nat) * 2 ^ fractionBits +
        bits.toNat % 2 ^ fractionBits) = bits.toNat := by
  have hbits := bits.toNat_lt
  have hfraction : 2 ^ fractionBits = 4503599627370496 := by decide
  simp only [signBit, hfraction, decide_eq_true_eq]
  split <;> omega

/-- The encoding of a double has the fields of the double. -/
theorem toBits_ofFields (negative : Bool) {exponent fraction : Nat}
    (hexponent : exponent < 2 ^ (11 : Nat)) (hfraction : fraction < 2 ^ fractionBits) :
    (ofFields negative exponent fraction hfraction).toBits =
      .ofNat (signBit negative + (exponent * 2 ^ fractionBits + fraction)) := by
  have hdouble : 2 ^ precision = 2 ^ fractionBits + 2 ^ fractionBits := by decide
  have hspecial : specialExponent = 2047 := by decide
  unfold ofFields
  split
  · rename_i hlast
    subst hlast
    split
    · rename_i hzero
      rw [hzero, Nat.add_zero, toBits]
    · rfl
  · split
    · rename_i hzero
      have hbits := toBits_ofUnits negative (by omega : fraction < 2 ^ precision) (Or.inr rfl)
        (Nat.zero_le 2045)
      rwa [Nat.pow_zero, Nat.mul_one, ← hzero] at hbits
    · rename_i hpositive
      obtain ⟨places, rfl⟩ := Nat.exists_eq_succ_of_ne_zero hpositive
      rw [Nat.succ_mul, Nat.add_assoc, Nat.succ_sub_one,
        toBits_ofUnits negative (by omega) (Or.inl (Nat.le_add_right _ _)) (by omega)]

/-- **The encoding of a decoded double is the one that it was decoded from.** -/
theorem toBits_ofBits (bits : UInt64) : (ofBits bits).toBits = bits := by
  rw [ofBits, toBits_ofFields _ (Nat.mod_lt _ (Nat.two_pow_pos _)), signBit_add_fields,
    UInt64.ofNat_toNat]

end LetterMachine.Binary64
