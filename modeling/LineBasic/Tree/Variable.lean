import LineBasic.Tree.Shape
import LineBasic.ValueType

/-!
Variables: scalars and arrays, and the storage they take in a stack frame.
-/

namespace LineBasic

def wordSize : Nat := 4

/-- The bytes that a displacement below the frame pointer can reach. -/
def maxFrameSize : Nat := 0x7fffffff

/-- The bytes of an array, counted in 32 bits from the outermost dimension inwards. There is no size
if the count leaves 32 bits on the way or ends beyond what a frame can hold. -/
def Shape.size? (dims : List Nat) : Option Nat :=
  let grow (size dim : Nat) : Option Nat :=
    if dim < 0x100000000 ∧ size * dim < 0x100000000 then some (size * dim) else none
  (dims.foldlM grow wordSize).filter (· ≤ maxFrameSize)

/-- A declared variable. The type is known from the first assignment on, the address once storage
is laid out: `address` bytes below the frame pointer. `scope` is the node that owns the variable. -/
structure Variable where
  name : String
  dims : List Nat
  scope : Nat
  type : Option ValueType := none
  address : Option Nat := none
deriving DecidableEq, Inhabited

namespace Variable

def isArray (v : Variable) : Bool :=
  !v.dims.isEmpty

def size? (v : Variable) : Option Nat :=
  Shape.size? v.dims

def describe (v : Variable) : String :=
  let dims := v.dims.map fun dim => s!"[{dim}]"
  v.name ++ String.join dims ++ ": " ++ (v.type.map ValueType.name).getD "?"

end Variable

end LineBasic
