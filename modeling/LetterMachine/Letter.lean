/-!
# Register letters

The machine has twenty-six registers, one for each letter of the Latin alphabet.  Source text names
a register by a letter of either case, and every answer names it by its lower-case letter.
-/

namespace LetterMachine

/-- The name of a register, numbered from `0` for `a` to `25` for `z`. -/
structure Letter where
  index : Fin 26
  deriving DecidableEq, Repr, Inhabited

namespace Letter

def ofIndex? (index : Nat) : Option Letter :=
  if hindex : index < 26 then some ⟨⟨index, hindex⟩⟩ else none

def lower (letter : Letter) : Char :=
  Char.ofNat ('a'.toNat + letter.index)

def upper (letter : Letter) : Char :=
  Char.ofNat ('A'.toNat + letter.index)

def ofLower? (c : Char) : Option Letter :=
  if 'a' ≤ c then ofIndex? (c.toNat - 'a'.toNat) else none

def ofUpper? (c : Char) : Option Letter :=
  if 'A' ≤ c then ofIndex? (c.toNat - 'A'.toNat) else none

/-- The register that a letter of either case names.  Only the letters of ASCII name one. -/
def ofChar? (c : Char) : Option Letter :=
  (ofLower? c).or (ofUpper? c)

/-- Every letter, in alphabetical order. -/
def all : List Letter :=
  (List.finRange 26).map Letter.mk

def text (letter : Letter) : String :=
  letter.lower.toString

@[simp]
theorem mem_all (letter : Letter) : letter ∈ all := by
  simp [all]

theorem ofLower?_lower (letter : Letter) : ofLower? letter.lower = some letter := by
  rcases letter with ⟨index⟩
  revert index
  decide

theorem ofUpper?_upper (letter : Letter) : ofUpper? letter.upper = some letter := by
  rcases letter with ⟨index⟩
  revert index
  decide

theorem lower_of_ofLower? {c : Char} {letter : Letter}
    (hletter : ofLower? c = some letter) : letter.lower = c := by
  unfold ofLower? ofIndex? at hletter
  split at hletter
  · split at hletter
    · rename_i hge hlt
      simp only [Option.some.injEq] at hletter
      subst hletter
      have hvalue : 'a'.toNat ≤ c.toNat := hge
      simp only [lower]
      rw [Nat.add_sub_cancel' hvalue, Char.ofNat_toNat]
    · contradiction
  · contradiction

theorem upper_of_ofUpper? {c : Char} {letter : Letter}
    (hletter : ofUpper? c = some letter) : letter.upper = c := by
  unfold ofUpper? ofIndex? at hletter
  split at hletter
  · split at hletter
    · rename_i hge hlt
      simp only [Option.some.injEq] at hletter
      subst hletter
      have hvalue : 'A'.toNat ≤ c.toNat := hge
      simp only [upper]
      rw [Nat.add_sub_cancel' hvalue, Char.ofNat_toNat]
    · contradiction
  · contradiction

end Letter

end LetterMachine
