import LetterMachine.Deque
import LetterMachine.Value

/-!
# Registers

A register is a sequence of values.  Programs work at its front and reach the back only by the two
rotations.  An operation that needs more values than there are does not apply.
-/

namespace LetterMachine

abbrev Register := Deque Value

namespace Register

/-- The two front values, the front one second, and what is under them. -/
def takePair? (register : Register) : Option (Value × Value × Register) := do
  let (right, under) ← register.popFront?
  let (left, rest) ← under.popFront?
  return (left, right, rest)

def dup? (register : Register) : Option Register :=
  register.popFront?.map fun (value, _) => register.pushFront value

def swap? (register : Register) : Option Register :=
  (takePair? register).map fun (left, right, rest) => (rest.pushFront right).pushFront left

def backToFront? (register : Register) : Option Register :=
  register.popBack?.map fun (value, rest) => rest.pushFront value

def frontToBack? (register : Register) : Option Register :=
  register.popFront?.map fun (value, rest) => rest.pushBack value

def drop? (register : Register) : Option Register :=
  register.popFront?.map fun (_, rest) => rest

/-- Equality of the values one by one, in the sense of `Value.same`. -/
def same (left right : Register) : Bool :=
  sameValues left.toList right.toList
where
  sameValues : List Value → List Value → Bool
    | [], [] => true
    | left :: lefts, right :: rights => left.same right && sameValues lefts rights
    | _, _ => false

end Register

def Shuffle.rearrange? (kind : Shuffle) (register : Register) : Option Register :=
  match kind with
  | .dup => Register.dup? register
  | .swap => Register.swap? register
  | .backToFront => Register.backToFront? register
  | .frontToBack => Register.frontToBack? register
  | .drop => Register.drop? register

/-! The operations on the register of a list of values. -/

namespace Register

@[simp]
theorem takePair?_ofList_nil : takePair? (.ofList []) = none := by
  simp [takePair?]

@[simp]
theorem takePair?_ofList_singleton (value : Value) : takePair? (.ofList [value]) = none := by
  simp [takePair?]

@[simp]
theorem takePair?_ofList_cons_cons (right left : Value) (rest : List Value) :
    takePair? (.ofList (right :: left :: rest)) = some (left, right, .ofList rest) := by
  simp [takePair?]

end Register

end LetterMachine
