import LineBasic.Parse.State
import LineBasic.Text.Numeral

/-!
Building the nodes of expressions and assignments, with the checks that go with them.
-/

namespace LineBasic.Check

/-- A node for a literal. A string is given its label at once. -/
def literalNode (text : String) (type : ValueType) : Check Node := do
  if type = .string then
    let label := s!"LC{(← get).strings.size}"
    let value : Literal := { text, type, label }
    modify fun env => { env with strings := env.strings.push value }
    node (.literal value) []
  else
    node (.literal { text, type }) []

def literalType : LiteralKind → ValueType
  | .integer => .int
  | .decimal => .float
  | .text => .string

/-- The literal that a token stands for. An integer must fit in a word. -/
def literal (token : Token) (kind : LiteralKind) (negative : Bool) : Check Node := do
  let text := if negative then "-" ++ token.text else token.text
  if kind = .integer ∧ Text.int32? text.toList = none then
    reportAt token (.integerRange text)
  literalNode text (literalType kind)

/-- The type of an operation. An operand of unknown type yields to an integer beside it. -/
def operationType (token : Token) (lhs rhs : Node) : Check (Option ValueType) := do
  let env ← get
  match env.type? lhs, env.type? rhs with
  | some lhs, some rhs =>
    match lhs.resolve? rhs with
    | some type => return type
    | none =>
      reportAt token (.operandTypes token.text lhs rhs)
      return none
  | some .int, none | none, some .int => return some .int
  | _, _ => return none

def binary (operator : Operator) (token : Token) (lhs rhs : Node) : Check Node := do
  let id ← fresh
  let type ← operationType token lhs rhs
  return ⟨id, (← get).line, .operator operator type, [lhs, rhs]⟩

/-- A negated operand: its product with minus one. -/
def negated (minus : Token) (operand : Node) : Check Node := do
  let id ← fresh
  let minusOne ← literalNode "-1" .int
  let type ← operationType minus operand minusOne
  return ⟨id, (← get).line, .operator .star type, [operand, minusOne]⟩

/-- An operator, the token it was written with, and its right operand. -/
abbrev Tail := Operator × Token × Node

/-- Joins the operands of multiplicative operators, from the left. What is left is a first term and
the terms added to it or subtracted from it. -/
def joinFactors (left : Node) : List Tail → Check (Node × List Tail)
  | [] => return (left, [])
  | (operator, token, right) :: rest => do
    if operator.isMultiplicative then
      joinFactors (← binary operator token left right) rest
    else
      let (term, tail) ← joinFactors right rest
      return (left, (operator, token, term) :: tail)

def joinTerms (left : Node) : List Tail → Check Node
  | [] => return left
  | (operator, token, right) :: rest => do
    joinTerms (← binary operator token left right) rest

/-- The expression made of a first operand and the operators and operands after it. All
multiplicative operators are joined before the first additive one. -/
def join (first : Node) (rest : List Tail) : Check Node := do
  let (term, tail) ← joinFactors first rest
  joinTerms term tail

/-- An index must be an integer, as far as its type is known. -/
def checkIndex (bracket : Token) (index : Node) : Check Unit := do
  match (← get).type? index with
  | some .float => reportAt bracket (.indexType .float)
  | some .string => reportAt bracket (.indexType .string)
  | _ => return ()

/-- A reference to a declared variable, with one index per dimension. -/
def reference (number : Nat) (name : Token) (indices : List Node) : Check Node := do
  let expected := ((← get).symbols[number]?.map fun v => v.dims.length).getD 0
  if expected ≠ indices.length then
    reportAt name (.wrongDimensions name.text expected indices.length)
  node (.reference number) indices

/-- A variable that is read, so it must be declared. If it is not, and diagnostics are being
collected, it is declared now and not reported again. -/
def readVariable (name : Token) (indices : List Node) : Check Node := do
  match (← get).resolve? name.text with
  | some number => reference number name indices
  | none =>
    reportAt name (.notInitialized name.text)
    let number ← declare name.text (List.replicate indices.length 1)
    reference number name indices

/-- A variable that is written. A new name is declared in the innermost block. -/
def writtenVariable (name : Token) (indices : List Node) : Check Node := do
  match (← get).resolve? name.text with
  | some number => reference number name indices
  | none =>
    let number ← declare name.text []
    let env ← get
    record (.declaredIn env.line name.text env.current.id)
    reference number name indices

/-- An assignment. The first one gives a variable its type, the others must agree with it. -/
def assignment (name : Token) (target value : Node) : Check Node := do
  if let .reference number := target.kind then
    let env ← get
    match env.type? target, env.type? value with
    | none, found => setType number found
    | some expected, some found =>
      if expected ≠ found then
        reportAt name (.assignedType name.text expected found)
    | some _, none => pure ()
  node .assign [target, value]

end LineBasic.Check
