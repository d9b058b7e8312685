import LineBasic.Lower.Statement

/-!
The code generator, which can be used for one program after another.
-/

namespace LineBasic

/-- A generator with what its last run has left behind. -/
structure Generator where
  target : Target := .mingw
  sourceName : Option String := none
  code : Array Instr := #[]
  top : Nat := 0
  lastLine : Option Nat := none

namespace Generator

def reset (generator : Generator) : Generator :=
  { generator with code := #[], top := 0, lastLine := none }

def assembly (generator : Generator) : String :=
  assemble generator.code.toList

/-- How a run ended: the generator with the code emitted, and the variables with the addresses they
were given, also if the run failed. -/
structure Outcome where
  generator : Generator
  symbols : Array Variable
  result : Except Diagnostic Unit
  log : List Event

/-- Generates code for a program, which replaces any code there is. -/
def compile (generator : Generator) (program : Program) : Outcome :=
  let fresh := generator.reset
  let start : Emission :=
    { code := fresh.code, top := fresh.top, lastLine := fresh.lastLine,
      symbols := program.symbols }
  let (result, stop) := ((Lower.program fresh.target fresh.sourceName program).run).run start
  let finished := match result with
    | .ok _ => [Event.emitted stop.code.size]
    | .error _ => []
  { generator := { fresh with code := stop.code, top := stop.top, lastLine := stop.lastLine }
    symbols := stop.symbols
    result
    log := stop.log.toList ++ finished }

end Generator

end LineBasic
