/-!
The shape of an array: the sizes of its dimensions, outermost first.
-/

namespace LineBasic.Shape

def count (dims : List Nat) : Nat :=
  dims.foldr (· * ·) 1

@[simp] theorem count_nil : count [] = 1 := rfl

@[simp] theorem count_cons (dim : Nat) (dims : List Nat) : count (dim :: dims) = dim * count dims :=
  rfl

/-- How many elements one step of each index spans. -/
def strides : List Nat → List Nat
  | [] => []
  | _ :: dims => count dims :: strides dims

@[simp] theorem length_strides (dims : List Nat) : (strides dims).length = dims.length := by
  induction dims with
  | nil => rfl
  | cons dim dims ih => simp [strides, ih]

/-- The place of an element. There is none if an index is missing, extra or out of bounds. -/
def offset? : List Nat → List Nat → Option Nat
  | [], [] => some 0
  | dim :: dims, index :: indices =>
    if index < dim then (offset? dims indices).map (index * count dims + ·) else none
  | _, _ => none

end LineBasic.Shape
