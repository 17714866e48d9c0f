/-!
# Two-ended sequences

A sequence that grows and shrinks at both of its ends.  It is held as two lists, one read from the
front and one read from the back; when a value is taken from an end that has run out, half of the
other end is turned over, so that taking a value costs a constant number of steps on the average.

Where the two lists meet cannot be seen: sequences of the same values are equal.  Every sequence is
that of some list, and each operation is described by what it does to the sequence of a list.
-/

namespace LetterMachine

/-- A sequence cut in two: its first values in order, and the others from the last one on. -/
structure Ends (α : Type) where
  front : List α
  back : List α

namespace Ends

variable {α : Type}

def toList (ends : Ends α) : List α :=
  ends.front ++ ends.back.reverse

instance setoid (α : Type) : Setoid (Ends α) where
  r left right := left.toList = right.toList
  iseqv := ⟨fun _ => rfl, Eq.symm, Eq.trans⟩

/-- The same sequence read from the other end. -/
def flip (ends : Ends α) : Ends α :=
  ⟨ends.back, ends.front⟩

/-- The same sequence with a value in its first part, if it has a value at all. -/
def refill (ends : Ends α) : Ends α :=
  if ends.front.isEmpty then
    let half := ends.back.length / 2
    ⟨(ends.back.drop half).reverse, ends.back.take half⟩
  else
    ends

/-- The first value and the sequence of the others. -/
def popFront? (ends : Ends α) : Option (α × Ends α) :=
  let refilled := ends.refill
  match refilled.front with
  | [] => none
  | value :: rest => some (value, ⟨rest, refilled.back⟩)

theorem isEmpty_toList (ends : Ends α) :
    ends.toList.isEmpty = (ends.front.isEmpty && ends.back.isEmpty) := by
  rcases ends with ⟨front, back⟩
  cases front <;> simp [toList]

theorem toList_flip (ends : Ends α) : ends.flip.toList = ends.toList.reverse := by
  simp [flip, toList]

theorem toList_refill (ends : Ends α) : ends.refill.toList = ends.toList := by
  rcases ends with ⟨front, back⟩
  cases front with
  | nil => simp [refill, toList, ← List.reverse_append]
  | cons value rest => rfl

theorem toList_eq_nil_of_refill {ends : Ends α} (hfront : ends.refill.front = []) :
    ends.toList = [] := by
  rcases ends with ⟨front, back⟩
  cases front with
  | nil =>
    have hlength : back.length ≤ back.length / 2 := by
      simpa [refill, List.drop_eq_nil_iff] using hfront
    have hback : back = [] := List.eq_nil_of_length_eq_zero (by omega)
    simp [toList, hback]
  | cons value rest => simp [refill] at hfront

end Ends

/-- A sequence of values with two ends. -/
def Deque (α : Type) : Type :=
  Quotient (Ends.setoid α)

namespace Deque

variable {α : Type}

/-- The values from the front to the back. -/
def toList (deque : Deque α) : List α :=
  Quotient.lift Ends.toList (fun _ _ hequal => hequal) deque

def ofList (values : List α) : Deque α :=
  Quotient.mk _ ⟨values, []⟩

theorem mk_eq_ofList (ends : Ends α) : (Quotient.mk _ ends : Deque α) = ofList ends.toList :=
  Quotient.sound (by
    change ends.toList = Ends.toList ⟨ends.toList, []⟩
    simp [Ends.toList])

@[simp]
theorem toList_ofList (values : List α) : (ofList values).toList = values := by
  change Ends.toList ⟨values, []⟩ = values
  simp [Ends.toList]

@[simp]
theorem ofList_toList (deque : Deque α) : ofList deque.toList = deque := by
  induction deque using Quotient.ind
  exact (mk_eq_ofList _).symm

/-- Sequences of the same values are equal. -/
theorem ext {left right : Deque α} (hvalues : left.toList = right.toList) : left = right := by
  rw [← ofList_toList left, hvalues, ofList_toList]

theorem exists_eq_ofList (deque : Deque α) : ∃ values, deque = ofList values :=
  ⟨deque.toList, (ofList_toList deque).symm⟩

instance [DecidableEq α] : DecidableEq (Deque α) := fun left right =>
  decidable_of_iff (left.toList = right.toList) ⟨ext, congrArg toList⟩

def empty : Deque α :=
  ofList []

instance : Inhabited (Deque α) := ⟨empty⟩

/-- Puts values in front of a sequence, in their order. -/
def prepend (values : List α) (deque : Deque α) : Deque α :=
  Quotient.lift (fun ends => (Quotient.mk _ ⟨values ++ ends.front, ends.back⟩ : Deque α))
    (fun left right (hequal : left.toList = right.toList) => by
      simp_all [mk_eq_ofList, Ends.toList]) deque

def pushFront (value : α) (deque : Deque α) : Deque α :=
  prepend [value] deque

def pushBack (value : α) (deque : Deque α) : Deque α :=
  Quotient.lift (fun ends => (Quotient.mk _ ⟨ends.front, value :: ends.back⟩ : Deque α))
    (fun left right (hequal : left.toList = right.toList) => by
      simp only [Ends.toList] at hequal
      simp [mk_eq_ofList, Ends.toList, ← List.append_assoc, hequal]) deque

def isEmpty (deque : Deque α) : Bool :=
  Quotient.lift (fun ends => ends.front.isEmpty && ends.back.isEmpty)
    (fun left right (hequal : left.toList = right.toList) => by
      simp only [← Ends.isEmpty_toList, hequal]) deque

/-- What is taken from the front of two cut sequences does not depend on where they are cut. -/
theorem popFront?_ends (ends : Ends α) :
    (ends.popFront?.map fun (value, rest) => (value, (Quotient.mk _ rest : Deque α))) =
      match ends.toList with
      | [] => none
      | value :: rest => some (value, ofList rest) := by
  rw [← Ends.toList_refill ends]
  unfold Ends.popFront?
  cases hfront : ends.refill.front with
  | nil =>
    rw [Ends.toList_refill, Ends.toList_eq_nil_of_refill hfront]
    simp [hfront]
  | cons value rest => simp [hfront, mk_eq_ofList, Ends.toList]

/-- The first value, and the sequence of the others. -/
def popFront? (deque : Deque α) : Option (α × Deque α) :=
  Quotient.lift
    (fun ends => ends.popFront?.map fun (value, rest) => (value, (Quotient.mk _ rest : Deque α)))
    (fun left right (hequal : left.toList = right.toList) => by
      simp only [popFront?_ends, hequal]) deque

/-- The same sequence read from the other end. -/
def reverse (deque : Deque α) : Deque α :=
  Quotient.lift (fun ends => (Quotient.mk _ ends.flip : Deque α))
    (fun left right (hequal : left.toList = right.toList) => by
      simp only [mk_eq_ofList, Ends.toList_flip, hequal]) deque

/-- The last value, and the sequence of the others. -/
def popBack? (deque : Deque α) : Option (α × Deque α) :=
  deque.reverse.popFront?.map fun (value, rest) => (value, rest.reverse)

@[simp]
theorem prepend_ofList (values rest : List α) :
    prepend values (ofList rest) = ofList (values ++ rest) := rfl

@[simp]
theorem pushFront_ofList (value : α) (rest : List α) :
    pushFront value (ofList rest) = ofList (value :: rest) := rfl

@[simp]
theorem pushBack_ofList (value : α) (rest : List α) :
    pushBack value (ofList rest) = ofList (rest ++ [value]) :=
  mk_eq_ofList ⟨rest, [value]⟩

@[simp]
theorem isEmpty_ofList (values : List α) : (ofList values).isEmpty = values.isEmpty :=
  Bool.and_true _

@[simp]
theorem reverse_ofList (values : List α) : (ofList values).reverse = ofList values.reverse :=
  mk_eq_ofList ⟨[], values⟩

@[simp]
theorem popFront?_ofList_nil : (ofList ([] : List α)).popFront? = none :=
  popFront?_ends ⟨[], []⟩

@[simp]
theorem popFront?_ofList_cons (value : α) (rest : List α) :
    (ofList (value :: rest)).popFront? = some (value, ofList rest) := rfl

theorem toList_of_popFront? {deque rest : Deque α} {value : α}
    (hpop : deque.popFront? = some (value, rest)) : deque.toList = value :: rest.toList := by
  obtain ⟨values, rfl⟩ := exists_eq_ofList deque
  cases values with
  | nil => simp at hpop
  | cons first others =>
    rw [popFront?_ofList_cons] at hpop
    cases hpop
    simp

@[simp]
theorem popBack?_ofList_nil : (ofList ([] : List α)).popBack? = none := by
  simp [popBack?]

@[simp]
theorem popBack?_ofList_concat (rest : List α) (value : α) :
    (ofList (rest ++ [value])).popBack? = some (value, ofList rest) := by
  simp [popBack?]

end Deque

end LetterMachine
