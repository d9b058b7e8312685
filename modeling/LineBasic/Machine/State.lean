import LineBasic.Machine.Image
import Std.Data.TreeMap

/-!
The state of a running program.
-/

namespace LineBasic.Machine

structure Registers where
  eax : Int32 := 0
  ecx : Int32 := 0
  edx : Int32 := 0
  esp : Int32 := stackTop
  ebp : Int32 := 0
deriving DecidableEq, Inhabited

namespace Registers

def get (registers : Registers) : Register → Int32
  | .eax => registers.eax
  | .ecx => registers.ecx
  | .edx => registers.edx
  | .esp => registers.esp
  | .ebp => registers.ebp

def set (registers : Registers) (register : Register) (value : Int32) : Registers :=
  match register with
  | .eax => { registers with eax := value }
  | .ecx => { registers with ecx := value }
  | .edx => { registers with edx := value }
  | .esp => { registers with esp := value }
  | .ebp => { registers with ebp := value }

@[simp] theorem get_set (registers : Registers) (register other : Register) (value : Int32) :
    (registers.set register value).get other =
      if other = register then value else registers.get other := by
  cases register <;> cases other <;> rfl

end Registers

/-- Words by address. A word that was never written is not there. -/
abbrev Memory := Std.TreeMap Int32 Int32

/-- `pc` is the number of the command to be executed next; `order` is how the target of the last
comparison stands to its source; `input` holds the words still to be read. -/
structure State where
  registers : Registers := {}
  memory : Memory := ∅
  order : Ordering := .eq
  pc : Nat := 0
  input : List (List Char) := []
  output : String := ""

namespace State

def reg (s : State) (register : Register) : Int32 :=
  s.registers.get register

def setReg (s : State) (register : Register) (value : Int32) : State :=
  { s with registers := s.registers.set register value }

def store (s : State) (address value : Int32) : State :=
  { s with memory := s.memory.insert address value }

def load (s : State) (address : Int32) : Except RunFault Int32 :=
  match s.memory[address]? with
  | some value => .ok value
  | none => .error (.unwritten address)

def push (s : State) (value : Int32) : State :=
  let esp := s.reg .esp - 4
  (s.setReg .esp esp).store esp value

def pop (s : State) : Except RunFault (Int32 × State) := do
  let esp := s.reg .esp
  if stackTop ≤ esp then
    throw .emptyStack
  let value ← s.load esp
  return (value, s.setReg .esp (esp + 4))

def address (s : State) : Operand → Except RunFault Int32
  | .mem disp base none => .ok (s.reg base + disp)
  | .mem disp base (some (index, scale)) => .ok (s.reg base + disp + s.reg index * scale)
  | .imm value => .error (.immediateAddress value)
  | .reg register => .error (.registerAddress register)

def read (s : State) (operand : Operand) : Except RunFault Int32 :=
  match operand with
  | .imm value => .ok value
  | .reg register => .ok (s.reg register)
  | .mem .. => do s.load (← s.address operand)

def write (s : State) (operand : Operand) (value : Int32) : Except RunFault State :=
  match operand with
  | .imm _ => .error .immediateTarget
  | .reg register => .ok (s.setReg register value)
  | .mem .. => do return s.store (← s.address operand) value

/-- Writes a function of a target and a source to the target. -/
def update (s : State) (source target : Operand) (f : Int32 → Int32 → Int32) :
    Except RunFault State := do
  let old ← s.read target
  s.write target (f old (← s.read source))

end State

end LineBasic.Machine
