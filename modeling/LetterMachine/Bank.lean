import LetterMachine.Register

/-!
# The register bank

The twenty-six registers together.
-/

namespace LetterMachine

structure Bank where
  registers : Vector Register 26
  deriving DecidableEq

namespace Bank

/-- All registers empty. -/
def empty : Bank :=
  ⟨Vector.replicate 26 .empty⟩

instance : Inhabited Bank := ⟨empty⟩

def get (bank : Bank) (letter : Letter) : Register :=
  bank.registers[letter.index]

def set (bank : Bank) (letter : Letter) (register : Register) : Bank :=
  ⟨bank.registers.set letter.index register⟩

/-- Puts a value in front of a register. -/
def push (bank : Bank) (letter : Letter) (value : Value) : Bank :=
  bank.set letter ((bank.get letter).pushFront value)

/-- Takes the front value of one register and puts it in front of another, or of the same one. -/
def transfer? (bank : Bank) (source target : Letter) : Option Bank :=
  (bank.get source).popFront?.map fun (value, rest) => (bank.set source rest).push target value

/-- The registers that hold a value, in alphabetical order. -/
def occupied (bank : Bank) : List (Letter × Register) :=
  (Letter.all.map fun letter => (letter, bank.get letter)).filter fun (_, register) =>
    !register.isEmpty

@[simp]
theorem get_empty (letter : Letter) : empty.get letter = .empty := by
  simp [empty, get]

@[simp]
theorem get_set_self (bank : Bank) (letter : Letter) (register : Register) :
    (bank.set letter register).get letter = register := by
  simp [get, set]

theorem get_set_of_ne (bank : Bank) {letter other : Letter} (hne : letter ≠ other)
    (register : Register) : (bank.set letter register).get other = bank.get other := by
  have hindex : (letter.index : Nat) ≠ other.index := by
    intro heq
    apply hne
    cases letter
    cases other
    simp_all [Fin.ext_iff]
  simp [get, set, Vector.getElem_set_ne, hindex]

theorem ext {left right : Bank} (hget : ∀ letter, left.get letter = right.get letter) :
    left = right := by
  cases left
  cases right
  congr
  apply Vector.ext
  intro index hindex
  exact hget ⟨⟨index, hindex⟩⟩

end Bank

end LetterMachine
