import LineBasic.Lower.Lowered
import LineBasic.Text.Numeral
import LineBasic.Tree.Node

/-!
Code for expressions, which leave their values on the stack.
-/

namespace LineBasic.Lower

open Lowered (emit fail)

def integerValue (literal : Literal) : Lowered Int32 :=
  match Text.int32? literal.text.toList with
  | some value => pure value
  | none => fail (.invalidInteger literal.text)

def literal (value : Literal) : Lowered Unit := do
  match value.type with
  | .int => emit [.push (.imm (← integerValue value))]
  | .string =>
    match value.label with
    | some label => emit [.push (.addr label)]
    | none => fail (.unlabelledText value.text)
  | .float => fail .floatUnsupported

/-- An integer literal, which can be stored without going through the stack. -/
def immediate? (node : Node) : Lowered (Option Int32) := do
  match node.kind with
  | .literal value => if value.type = .int then return some (← integerValue value) else return none
  | _ => return none

/-- Takes one index per dimension from the stack, the innermost first, and leaves the place of the
element in `edx`. -/
def elementOffset (dims : List Nat) : List Instr :=
  .mov (.imm 0) (.reg .edx) :: (Shape.strides dims).reverse.flatMap fun stride =>
    .pop .eax ::
      (if stride = 1 then [] else [.imul (.imm (Int32.ofNat stride)) .eax]) ++
      [.add (.reg .eax) (.reg .edx)]

/-- Repeated multiplication, with the result in `eax`. An exponent below one gives one. -/
def power (id : Nat) : List Instr :=
  let loop := s!"POW_{id}_LOOP"
  let test := s!"POW_{id}_TEST"
  [.pop .ecx, .pop .edx, .mov (.imm 1) (.reg .eax), .jmp test,
    .label loop, .imul (.reg .edx) .eax, .dec .ecx,
    .label test, .cmp (.imm 0) (.reg .ecx), .jcc .greater loop]

/-- An operation on the two values on top of the stack. A comparison is none. -/
def operation (id : Nat) : Operator → Lowered Unit
  | .plus => emit [.pop .edx, .pop .eax, .add (.reg .edx) (.reg .eax), .push (.reg .eax)]
  | .minus => emit [.pop .edx, .pop .eax, .sub (.reg .edx) (.reg .eax), .push (.reg .eax)]
  | .star => emit [.pop .edx, .pop .eax, .imul (.reg .edx) .eax, .push (.reg .eax)]
  | .slash => emit [.pop .ecx, .pop .eax, .cltd, .idiv .ecx, .push (.reg .eax)]
  | .caret => emit (power id ++ [.push (.reg .eax)])
  | comparator => fail (.comparatorMisplaced comparator)

def malformed {α : Type} (node : Node) : Lowered α :=
  fail (.malformed node.kind.name node.children.length)

/-- The place of a variable in memory. For an element of an array, `indices` leaves the indices on
the stack. -/
def storage (v : Variable) (isElement : Bool) (indices : Lowered Unit) : Lowered Operand :=
  match v.address with
  | none => fail (.noStorage v.name)
  | some address => do
    let disp := -Int32.ofNat address
    if isElement then
      indices
      emit (elementOffset v.dims)
      return .indexed disp .ebp .edx wordSize
    else
      return .mem disp .ebp

mutual

/-- Leaves the value of an expression on the stack. -/
def expression (symbols : Array Variable) : Node → Lowered Unit
  | ⟨_, _, .literal value, _⟩ => literal value
  | ⟨_, _, .reference number, indices⟩ => do
    let v := symbols[number]?.getD default
    if v.type = some .float then
      fail .floatUnsupported
    else
      let source ← storage v (!indices.isEmpty) (expressions symbols indices)
      emit [.push source]
  | ⟨_, _, .operator _ (some .float), _⟩ => fail .floatUnsupported
  | ⟨_, _, .operator op (some .string), _⟩ => fail (.textOperator op)
  | ⟨id, _, .operator op _, [lhs, rhs]⟩ => do
    expression symbols lhs
    expression symbols rhs
    operation id op
  | ⟨id, line, .operator op type, children⟩ => malformed ⟨id, line, .operator op type, children⟩
  | node => fail (.unexpectedExpression node.kind.name)

/-- Leaves the values of expressions on the stack, the last one on top. -/
def expressions (symbols : Array Variable) : List Node → Lowered Unit
  | [] => pure ()
  | node :: nodes => do
    expression symbols node
    expressions symbols nodes

end

def place (symbols : Array Variable) (node : Node) : Lowered Operand :=
  match node.kind with
  | .reference number =>
    storage (symbols[number]?.getD default) (!node.children.isEmpty)
      (expressions symbols node.children)
  | kind => fail (.variableExpected kind.name)

def operands (node : Node) : Lowered (Node × Node) :=
  match node.children with
  | [lhs, rhs] => pure (lhs, rhs)
  | _ => malformed node

def assignment (symbols : Array Variable) (node : Node) : Lowered Unit := do
  let (target, value) ← operands node
  match ← immediate? value with
  | some value =>
    let target ← place symbols target
    emit [.mov (.imm value) target]
  | none =>
    expression symbols value
    let target ← place symbols target
    emit [.pop .eax, .mov (.reg .eax) target]

end LineBasic.Lower
