import LineBasic.Machine.State

/-!
The execution of single commands, and of the two library functions that programs call.
-/

namespace LineBasic.Machine

def Image.string (image : Image) (address : Int32) : Except RunFault String :=
  match image.data.find? (·.address == address) with
  | some datum => .ok datum.content
  | none => .error (.noString address)

namespace State

/-- Writes what a format and the arguments from `address` on stand for, behind `written`. -/
def format (image : Image) (s : State) (written : String) :
    Int32 → List Char → Except RunFault String
  | _, [] => .ok written
  | address, '%' :: 'd' :: rest => do
    let value ← s.load address
    format image s (written ++ toString value.toInt) (address + 4) rest
  | address, '%' :: 's' :: rest => do
    let text ← image.string (← s.load address)
    format image s (written ++ text) (address + 4) rest
  | address, '%' :: '%' :: rest => format image s (written.push '%') address rest
  | _, '%' :: rest => .error (.unsupportedConversion rest.head?)
  | address, c :: rest => format image s (written.push c) address rest

def printf (image : Image) (s : State) : Except RunFault State := do
  let text ← image.string (← s.load (s.reg .esp))
  let written ← s.format image "" (s.reg .esp + 4) text.toList
  return { s with output := s.output ++ written }

/-- How many numbers a format asks for. -/
def conversions : List Char → Nat
  | '%' :: 'd' :: rest => conversions rest + 1
  | _ :: rest => conversions rest
  | [] => 0

/-- Reads numbers and stores them at the addresses found from `address` on. -/
def scan (s : State) : Nat → Int32 → Except RunFault State
  | 0, _ => .ok s
  | count + 1, address => do
    match s.input with
    | [] => throw .inputExhausted
    | word :: rest =>
      match Text.int32? word with
      | none => throw .inputExhausted
      | some value =>
        let target ← s.load address
        scan ({ s with input := rest }.store target value) count (address + 4)

def scanf (image : Image) (s : State) : Except RunFault State := do
  let text ← image.string (← s.load (s.reg .esp))
  s.scan (conversions text.toList) (s.reg .esp + 4)

/-- Calls a library function. Its name may have any number of underscores before it. -/
def call (image : Image) (s : State) (symbol : String) : Except RunFault State := do
  let s ← match String.ofList (symbol.toList.dropWhile (· == '_')) with
    | "main" => pure s
    | "printf" => s.printf image
    | "scanf" => s.scanf image
    | _ => throw (.unknownFunction symbol)
  return s.setReg .eax 0

def jump (image : Image) (s : State) (goal : String) : Except RunFault State :=
  match image.labels.lookup goal with
  | some pc => .ok { s with pc }
  | none => .error (.unknownGoal goal)

def holds (s : State) : Condition → Bool
  | .equal => s.order == .eq
  | .notEqual => s.order != .eq
  | .greater => s.order == .gt
  | .lessEqual => s.order != .gt

/-- Divides the double word in `edx` and `eax` toward zero. The quotient keeps its low word. -/
def divide (s : State) (divisor : Int32) : State :=
  let dividend := (s.reg .edx).toInt * 0x100000000 + (s.reg .eax).toUInt32.toNat
  let quotient := dividend.tdiv divisor.toInt
  let remainder := dividend.tmod divisor.toInt
  (s.setReg .eax (Int32.ofInt quotient)).setReg .edx (Int32.ofInt remainder)

end State

def returnSentinel : Int32 := -1

/-- A run goes on or has come to its end. -/
inductive Progress where
  | running (s : State)
  | returned (s : State)

def step (image : Image) (command : Command) (s : State) : Except RunFault Progress := do
  match command.action with
  | .push source => return .running (s.push (← s.read source))
  | .pop target =>
    let (value, s) ← s.pop
    return .running (← s.write target value)
  | .mov source target => return .running (← s.write target (← s.read source))
  | .lea source target => return .running (← s.write target (← s.address source))
  | .add source target => return .running (← s.update source target (· + ·))
  | .sub source target => return .running (← s.update source target (· - ·))
  | .imul source target => return .running (← s.update source target (· * ·))
  | .dec target => return .running (← s.write target ((← s.read target) - 1))
  | .cltd => return .running (s.setReg .edx (if s.reg .eax < 0 then -1 else 0))
  | .idiv divisor =>
    let divisor ← s.read divisor
    if divisor = 0 then
      throw (.divisionByZero command.source)
    return .running (s.divide divisor)
  | .cmp source target =>
    let value ← s.read target
    return .running { s with order := compare value (← s.read source) }
  | .jmp goal => return .running (← s.jump image goal)
  | .jcc condition goal =>
    if s.holds condition then
      return .running (← s.jump image goal)
    return .running s
  | .call symbol => return .running (← s.call image symbol)
  | .leave =>
    let (saved, s) ← (s.setReg .esp (s.reg .ebp)).pop
    return .running (s.setReg .ebp saved)
  | .ret =>
    let (goal, s) ← s.pop
    if goal = returnSentinel then
      return .returned s
    throw .unknownReturn
  | .unsupported => throw (.unsupported command.source)

end LineBasic.Machine
