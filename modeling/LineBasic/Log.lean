import LineBasic.Diagnostic.Basic
import LineBasic.Tree.Variable

/-!
The record of a compilation: what each stage has to say besides its result.
-/

namespace LineBasic

inductive Level where
  | error | warn | info | debug | trace
deriving DecidableEq, Inhabited

namespace Level

def all : List Level :=
  [error, warn, info, debug, trace]

def name : Level → String
  | error => "ERROR"
  | warn => "WARN"
  | info => "INFO"
  | debug => "DEBUG"
  | trace => "TRACE"

def rank : Level → Nat
  | error => 0
  | warn => 1
  | info => 2
  | debug => 3
  | trace => 4

end Level

/-- What is accepted though it is likely a mistake. -/
inductive Warning where
  | leavesScope (target line : Nat)
  | countsDown (line : Nat) (step : String)
deriving DecidableEq

namespace Warning

def message : Warning → String
  | leavesScope target line => s!"GOTO {target} at line {line} jumps out of a nested scope"
  | countsDown line step =>
    s!"FOR at line {line} has negative step {step}, but the loop test assumes it counts up"

def origin : Warning → String
  | leavesScope _ _ => "basic_compiler::parsing"
  | countsDown _ _ => "basic_compiler::parsing::stmts"

end Warning

inductive Event where
  | warned (warning : Warning)
  | tokenized (tokens bytes : Nat)
  | statement (line : Nat) (text : String)
  | declaredIn (line : Nat) (name : String) (scope : Nat)
  | declared (line : Nat) (declared : Variable)
  | recovered (diagnostic : Diagnostic)
  | parsed (lines nodes symbols : Nat)
  | placed (placed : Variable) (below : Nat)
  | programReserves (bytes : Nat)
  | scopeReserves (scope bytes : Nat)
  | emitted (lines : Nat)
  | compiled (sourceBytes assemblyBytes : Nat)
deriving DecidableEq

namespace Event

def level : Event → Level
  | warned _ => .warn
  | tokenized _ _ | recovered _ | parsed _ _ _ | emitted _ | compiled _ _ => .debug
  | statement _ _ | declaredIn _ _ _ | declared _ _ | placed _ _ | programReserves _
  | scopeReserves _ _ => .trace

def message : Event → String
  | warned warning => warning.message
  | tokenized tokens bytes => s!"tokenized {tokens} tokens from {bytes} bytes"
  | statement line text => s!"line {line}: {text}"
  | declaredIn line name scope => s!"line {line}: declared {name} in scope {scope}"
  | declared line v => s!"line {line}: declared {v.describe}"
  | recovered diagnostic => s!"recovered from {diagnostic.render}"
  | parsed lines nodes symbols =>
    s!"parsed {lines} lines into {nodes} nodes and {symbols} variables"
  | placed v below => s!"{v.describe} at -{below}(%ebp)"
  | programReserves bytes => s!"program reserves {bytes} bytes"
  | scopeReserves scope bytes => s!"scope {scope} reserves {bytes} bytes"
  | emitted lines => s!"emitted {lines} lines of assembly"
  | compiled source assembly =>
    s!"compiled {source} bytes of source into {assembly} bytes of assembly"

end Event

/-- A result or the diagnostics that stand in its place, with the record of how it came about. -/
structure Report (α : Type) where
  result : Except Diagnostics α
  log : List Event

/-- The events at a level or more severe, in order. -/
def eventsUpTo (level : Level) (log : List Event) : List Event :=
  log.filter fun event => event.level.rank ≤ level.rank

end LineBasic
