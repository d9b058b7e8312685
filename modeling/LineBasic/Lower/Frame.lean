import LineBasic.Log
import LineBasic.Lower.Lowered
import LineBasic.Tree.Node

/-!
The state of code generation. Code and addresses survive a failure, so the state does too.
-/

namespace LineBasic

/-- `top` is the number of bytes that the blocks entered so far take in the frame, and `lastLine` the
number of the last line that was given a label. -/
structure Emission where
  code : Array Instr := #[]
  top : Nat := 0
  lastLine : Option Nat := none
  symbols : Array Variable := #[]
  log : Array Event := #[]

abbrev Emit := ExceptT Diagnostic (StateM Emission)

def lineLabel (line : Nat) : String :=
  s!"LINE_{line}"

namespace Emit

def record (event : Event) : Emit Unit :=
  modify fun s => { s with log := s.log.push event }

def emit (code : List Instr) : Emit Unit :=
  modify fun s => { s with code := s.code ++ code }

def fail {α : Type} (fault : EmissionFault) : Emit α :=
  throw { fault := .emission fault }

/-- Emits lowered code, and fails where the lowering did. -/
def lowered {α : Type} (lower : Array Variable → Lowered α) : Emit α := do
  let lowered := lower (← get).symbols
  emit lowered.code
  match lowered.result with
  | .ok a => return a
  | .error fault => fail fault

/-- Puts a variable below everything that is in the frame already. -/
def reserve (number : Nat) : Emit Unit := do
  let s ← get
  let v := s.symbols[number]?.getD default
  match (v.size?.map (s.top + ·)).filter (· ≤ maxFrameSize) with
  | some top =>
    set { s with
      top
      symbols := s.symbols.modify number ({ · with address := some top }) }
    record (.placed v top)
  | none => fail (.frameTooLarge v.name)

/-- Reserves the variables of a block, in the order of their declarations. Returns the number of
bytes they take. -/
def enter (vars : List Nat) : Emit Nat := do
  let base := (← get).top
  vars.forM reserve
  return (← get).top - base

/-- Releases what the innermost block has reserved. -/
def leave (size : Nat) : Emit Unit :=
  modify fun s => { s with top := s.top - size }

/-- The label of a line, unless the line has it already. -/
def labelLine (line : Nat) : Emit Unit := do
  if (← get).lastLine ≠ some line then
    emit [.label (lineLabel line)]
    modify fun s => { s with lastLine := some line }

end Emit

end LineBasic
