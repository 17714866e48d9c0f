import LetterMachine.Binary64

/-!
# Sixty-four bits

The encoding of doubles in the interchange format: one bit for the sign, eleven for the exponent and
fifty-two for the fraction.  Counted in units, a number and its encoding differ only in how the
exponent is written: an exponent field above one moves the significand up by one place less.
-/

namespace LetterMachine.Binary64

/-- The exponent field of infinities and of what is not a number. -/
def specialExponent : Nat := 2 ^ (11 : Nat) - 1

/-- The double with these three fields. -/
def ofFields (negative : Bool) (exponent fraction : Nat) (hfraction : fraction < 2 ^ fractionBits) :
    Binary64 :=
  if exponent = specialExponent then
    if hzero : fraction = 0 then .infinite negative
    else .nan negative ⟨fraction, Nat.pos_of_ne_zero hzero, hfraction⟩
  else if exponent = 0 then
    ofUnits negative fraction 1
  else
    ofUnits negative ((2 ^ fractionBits + fraction) * 2 ^ (exponent - 1)) 1

def ofBits (bits : UInt64) : Binary64 :=
  ofFields (decide (2 ^ (63 : Nat) ≤ bits.toNat)) (bits.toNat / 2 ^ fractionBits % 2 ^ (11 : Nat))
    (bits.toNat % 2 ^ fractionBits) (Nat.mod_lt _ (Nat.two_pow_pos _))

/-- The encoding of a magnitude: the leading digit of the significand counts once more in the
exponent field, so the two fields are added rather than put side by side. -/
def magnitudeBits (magnitude : Magnitude) : Nat :=
  let exponent := gridExponent magnitude.units
  exponent * 2 ^ fractionBits + magnitude.units / 2 ^ exponent

def signBit (negative : Bool) : Nat :=
  if negative then 2 ^ (63 : Nat) else 0

def toBits : Binary64 → UInt64
  | .nan negative payload =>
    UInt64.ofNat (signBit negative + (specialExponent * 2 ^ fractionBits + payload.bits))
  | .infinite negative => UInt64.ofNat (signBit negative + specialExponent * 2 ^ fractionBits)
  | .finite negative magnitude => UInt64.ofNat (signBit negative + magnitudeBits magnitude)

end LetterMachine.Binary64
