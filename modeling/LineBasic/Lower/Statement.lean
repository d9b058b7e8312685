import LineBasic.Lower.Expression
import LineBasic.Lower.Frame

/-!
Code for statements and whole programs.
-/

namespace LineBasic.Lower

open Emit (emit lowered)

def grow (size : Nat) : List Instr :=
  if size = 0 then [] else [.sub (.imm (Int32.ofNat size)) (.reg .esp)]

def shrink (size : Nat) : List Instr :=
  if size = 0 then [] else [.add (.imm (Int32.ofNat size)) (.reg .esp)]

/-- Calls a library function on a format and the arguments already on the stack, and takes them off
the stack again. -/
def call (target : Target) (function : String) (format : Node) (arguments : Nat) :
    Lowered Unit :=
  match format.kind with
  | .literal { label := some label, .. } =>
    Lowered.emit [.push (.addr label), .call (target.symbol function),
      .add (.imm (Int32.ofNat (wordSize * (arguments + 1)))) (.reg .esp)]
  | _ => Lowered.fail .formatNotText

/-- Prints values, the last of which is pushed first. -/
def print (target : Target) (symbols : Array Variable) (node : Node) : Lowered Unit :=
  match node.children with
  | format :: arguments => do
    expressions symbols arguments.reverse
    call target "printf" format arguments.length
  | [] => malformed node

def pushAddress (symbols : Array Variable) (node : Node) : Lowered Unit := do
  let source ← place symbols node
  Lowered.emit [.lea source .eax, .push (.reg .eax)]

def read (target : Target) (symbols : Array Variable) (node : Node) : Lowered Unit :=
  match node.children with
  | format :: targets => do
    targets.reverse.forM (pushAddress symbols)
    call target "scanf" format targets.length
  | [] => malformed node

/-- How a comparison is decided: whether one is taken from its right side first, and the condition
under which it does not hold. -/
def decision : Operator → Lowered (Bool × Condition)
  | .equal | .same => pure (false, .notEqual)
  | .notEqual => pure (false, .equal)
  | .less => pure (true, .greater)
  | .lessEqual => pure (false, .greater)
  | .greater => pure (false, .lessEqual)
  | .greaterEqual => pure (true, .lessEqual)
  | operator => Lowered.fail (.comparatorUnknown operator)

/-- Jumps to `skip` unless a comparison holds. -/
def comparison (symbols : Array Variable) (condition : Node) (skip : String) :
    Lowered Unit := do
  match condition.kind with
  | .operator operator (some .string) => Lowered.fail (.textComparator operator)
  | .operator operator _ =>
    let (lhs, rhs) ← operands condition
    expression symbols lhs
    expression symbols rhs
    Lowered.emit [.pop .eax, .pop .edx]
    let (adjusted, fails) ← decision operator
    if adjusted then
      Lowered.emit [.sub (.imm 1) (.reg .eax)]
    Lowered.emit [.cmp (.reg .eax) (.reg .edx), .jcc fails skip]
  | _ => malformed condition

/-- Adds the step of a loop to its counter. Returns the counter. -/
def advance (symbols : Array Variable) (start step : Node) : Lowered Operand := do
  let (counter, _) ← operands start
  let counter ← place symbols counter
  expression symbols step
  Lowered.emit [.pop .eax, .add (.reg .eax) counter]
  return counter

/-- Goes round a loop while its counter is not above the limit, whichever way it counts. -/
def test (symbols : Array Variable) (limit : Node) (counter : Operand) (start : String) :
    Lowered Unit := do
  expression symbols limit
  Lowered.emit [.pop .eax, .cmp (.reg .eax) counter, .jcc .lessEqual start]

mutual

/-- A statement. A fault in it is reported with its line. -/
def statement (target : Target) : Node → Emit Unit
  | ⟨id, line, kind, children⟩ => do
    Emit.labelLine line
    ExceptT.adapt (·.within line) <| match kind, children with
      | .assign, _ => lowered (assignment · ⟨id, line, kind, children⟩)
      | .loop, [start, limit, step, body] => do
        let startLabel := s!"FOR_{line}_START"
        let testLabel := s!"FOR_{line}_TEST"
        lowered (assignment · start)
        emit [.jmp testLabel, .label startLabel]
        block target body
        let counter ← lowered (advance · start step)
        emit [.label testLabel]
        lowered (test · limit counter startLabel)
      | .branch, [condition, consequence] => do
        let endLabel := s!"IF_{line}_END"
        lowered (comparison · condition endLabel)
        block target consequence
        emit [.jmp endLabel, .label endLabel]
      | .branch, [condition, consequence, alternative] => do
        let elseLabel := s!"IF_{line}_ELSE"
        let endLabel := s!"IF_{line}_END"
        lowered (comparison · condition elseLabel)
        block target consequence
        emit [.jmp endLabel, .label elseLabel]
        block target alternative
        emit [.label endLabel]
      | .goto line, _ => emit [.jmp (lineLabel line)]
      | .print, _ | .println, _ => lowered (print target · ⟨id, line, kind, children⟩)
      | .read, _ => lowered (read target · ⟨id, line, kind, children⟩)
      | .loop, _ | .branch, _ => lowered fun _ => malformed ⟨id, line, kind, children⟩
      | _, _ => Emit.fail (.unexpectedStatement kind.name)

def statements (target : Target) : List Node → Emit Unit
  | [] => pure ()
  | node :: nodes => do
    statement target node
    statements target nodes

/-- A block, with room for its variables while it runs. -/
def block (target : Target) : Node → Emit Unit
  | ⟨id, _, kind, children⟩ => do
    let size ← Emit.enter (kind.vars?.getD [])
    Emit.record (.scopeReserves id size)
    emit (grow size)
    statements target children
    emit (shrink size)
    Emit.leave size

end

/-- The name of the source and the strings that have labels. -/
def header (target : Target) (sourceName : Option String) (strings : List Literal) : List Instr :=
  let data := strings.flatMap fun literal =>
    match literal.label with
    | some label => [Instr.label label, .ascii literal.content]
    | none => []
  (sourceName.map Instr.file).toList ++
    if data.isEmpty then [] else .section target.rodata :: data

/-- The whole program as the function that the system calls first. -/
def program (target : Target) (sourceName : Option String) (program : Program) : Emit Unit := do
  emit (header target sourceName program.strings.toList)
  let main := target.symbol "main"
  emit [.text, .globl main, .label main, .push (.reg .ebp), .mov (.reg .esp) (.reg .ebp)]
  let size ← Emit.enter (program.root.kind.vars?.getD [])
  Emit.record (.programReserves size)
  emit (grow size)
  if target = .mingw then
    emit [.call "___main"]
  statements target program.root.children
  emit [.mov (.imm 0) (.reg .eax), .leave, .ret]

end LineBasic.Lower
