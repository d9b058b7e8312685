import LineBasic.Machine.Step

/-!
Runs from the first command to the return of the first function, within a limit of steps.
-/

namespace LineBasic.Machine

/-- What a run has written, the number it returned, and the number of commands it executed. -/
structure Run where
  output : String
  exitCode : Int32
  steps : Nat
deriving DecidableEq

/-- Executes at most `limit` commands. Returns the last state and the number of commands. -/
def runFrom (image : Image) : Nat → Nat → State → Except RunFault (State × Nat)
  | 0, _, s => .error (.stepLimit s.output)
  | limit + 1, steps, s =>
    match image.code[s.pc]? with
    | none => .error .ranOff
    | some command =>
      match step image command { s with pc := s.pc + 1 } with
      | .error fault => .error fault
      | .ok (.running s) => runFrom image limit (steps + 1) s
      | .ok (.returned s) => .ok (s, steps + 1)

def stepLimit : Nat := 1000000

def Image.entry? (image : Image) : Option Nat :=
  (image.labels.lookup "_main").or (image.labels.lookup "main")

def State.start (input : String) (pc : Nat) : State :=
  State.push { pc, input := Text.words input.toList } returnSentinel

/-- Runs a loaded program. It must leave the stack as it was. -/
def Image.run (image : Image) (input : String) : Except RunFault Run := do
  match image.entry? with
  | none => throw .noMain
  | some pc =>
    let (s, steps) ← runFrom image stepLimit 0 (State.start input pc)
    if s.reg .esp ≠ stackTop then
      throw (.unbalanced (s.reg .esp))
    return { output := s.output, exitCode := s.reg .eax, steps }

def run (assembly input : String) : Except Fault Run := do
  let image ← (load assembly).mapError Fault.load
  (image.run input).mapError Fault.run

end LineBasic.Machine
