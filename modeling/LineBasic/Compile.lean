import LineBasic.Lower.Generator
import LineBasic.Parse.Program
import LineBasic.Token.Scanner

/-!
From source text to assembly.
-/

namespace LineBasic

/-- What to compile for, whether to go on after semantic faults, and the name of the source. -/
structure Config where
  target : Target := .mingw
  collect : Bool := false
  sourceName : Option String := none

def tokenizeLogged (source : String) : Report (List Token) :=
  match tokenize source with
  | .ok tokens => ⟨.ok tokens, [.tokenized tokens.length source.utf8ByteSize]⟩
  | .error diagnostic => ⟨.error ⟨diagnostic, []⟩, []⟩

def Report.bind {α β : Type} (report : Report α) (next : α → Report β) : Report β :=
  match report.result with
  | .ok a => ⟨(next a).result, report.log ++ (next a).log⟩
  | .error diagnostics => ⟨.error diagnostics, report.log⟩

def parseSource (source : String) (collect : Bool) : Report Program :=
  (tokenizeLogged source).bind fun tokens => parse tokens collect

def generate (config : Config) (program : Program) : Report String :=
  let generator : Generator := { target := config.target, sourceName := config.sourceName }
  let outcome := generator.compile program
  match outcome.result with
  | .ok _ => ⟨.ok outcome.generator.assembly, outcome.log⟩
  | .error diagnostic => ⟨.error ⟨diagnostic, []⟩, outcome.log⟩

def compile (source : String) (config : Config) : Report String :=
  ((parseSource source config.collect).bind (generate config)).bind fun assembly =>
    ⟨.ok assembly, [.compiled source.utf8ByteSize assembly.utf8ByteSize]⟩

end LineBasic
