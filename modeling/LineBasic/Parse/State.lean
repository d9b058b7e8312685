import LineBasic.Log
import LineBasic.Token.Stream
import LineBasic.Tree.Node

/-!
The state of a parse. Errors and events survive a failure, so the state does too.
-/

namespace LineBasic

namespace Parse

/-- A block under construction: the node it becomes, its variables and its statements so far. -/
structure Block where
  id : Nat
  line : Nat
  vars : List Nat := []
  statements : Array Node := #[]

def Block.node (block : Block) : Node :=
  ⟨block.id, block.line, .block block.vars, block.statements.toList⟩

/-- What an open block belongs to: the body of a loop, or one of the two blocks of a branch. -/
inductive Opening where
  | loop (id line : Nat) (start limit step : Node)
  | branch (id line : Nat) (condition : Node)
  | otherwise (id line : Nat) (condition consequence : Node)

namespace Opening

def keyword : Opening → Keyword
  | loop .. => .FOR
  | branch .. | otherwise .. => .IF

def line : Opening → Nat
  | loop _ line .. | branch _ line .. | otherwise _ line .. => line

/-- The finished construct, given its last block. -/
def close : Opening → Node → Node
  | loop id line start limit step, body => ⟨id, line, .loop, [start, limit, step, body]⟩
  | branch id line condition, consequence => ⟨id, line, .branch, [condition, consequence]⟩
  | otherwise id line condition consequence, alternative =>
    ⟨id, line, .branch, [condition, consequence, alternative]⟩

end Opening

structure OpenBlock where
  opening : Opening
  block : Block

/-- A jump, to be checked once all lines are known. `scopes` are the blocks around it, innermost
first; the program's block is the last of them. -/
structure Jump where
  target : Nat
  line : Nat
  scopes : List Nat
  position : Position

/-- `blocks` holds the open blocks, innermost first. `lines` holds the line numbers seen so far, each
with the block its statement was put in; a statement without code is put in none. -/
structure Env where
  collect : Bool
  size : Nat := 1
  symbols : Array Variable := #[]
  strings : Array Literal := #[]
  program : Block := { id := 0, line := 0 }
  blocks : List OpenBlock := []
  line : Nat := 0
  lines : List (Nat × Option Nat) := []
  jumps : Array Jump := #[]
  errors : Array Diagnostic := #[]
  log : Array Event := #[]

namespace Env

/-- The blocks around the current statement, innermost first. -/
def scopes (env : Env) : List Block :=
  env.blocks.map OpenBlock.block ++ [env.program]

def current (env : Env) : Block :=
  match env.blocks with
  | [] => env.program
  | innermost :: _ => innermost.block

def updateCurrent (env : Env) (update : Block → Block) : Env :=
  match env.blocks with
  | [] => { env with program := update env.program }
  | innermost :: outer =>
    { env with blocks := { innermost with block := update innermost.block } :: outer }

/-- The first variable of a block with this name. -/
def lookup? (env : Env) (block : Block) (name : String) : Option Nat :=
  block.vars.find? fun number => env.symbols[number]?.any (·.name == name)

def resolve? (env : Env) (name : String) : Option Nat :=
  env.scopes.findSome? fun block => env.lookup? block name

/-- The type of an expression, as far as it is known by now. -/
def type? (env : Env) (node : Node) : Option ValueType :=
  node.kind.type? env.symbols

/-- Records the block that the current line's statement is put in. -/
def markLine (env : Env) : Env :=
  { env with lines := env.lines.map fun (number, block) =>
      if number = env.line then (number, some env.current.id) else (number, block) }

def toProgram (env : Env) : Program where
  root := ⟨env.program.id, env.program.line, .program env.program.vars,
    env.program.statements.toList⟩
  size := env.size
  symbols := env.symbols
  strings := env.strings

end Env

end Parse

/-- Checks and constructions that read no tokens. -/
abbrev Check := ExceptT Diagnostic (StateM Parse.Env)

/-- A check that may read tokens as well. -/
abbrev Parse := StateT TokenStream Check

namespace Check

open Parse (Env Block OpenBlock)

def record (event : Event) : Check Unit :=
  modify fun env => { env with log := env.log.push event }

/-- The diagnostic for a fault of the current statement. -/
def diagnose (fault : Fault) (position : Option Position) : Check Diagnostic :=
  return { fault, line := some (← get).line, position }

/-- Fails, or notes the diagnostic and goes on if diagnostics are being collected. -/
def report (diagnostic : Diagnostic) : Check Unit := do
  if (← get).collect then
    record (.recovered diagnostic)
    modify fun env => { env with errors := env.errors.push diagnostic }
  else
    throw diagnostic

def reportAt (token : Token) (fault : SemanticFault) : Check Unit := do
  report (← diagnose (.semantic fault) token.position)

def failAt {α : Type} (token : Token) (fault : GrammarFault) : Check α := do
  throw (← diagnose (.grammar fault) token.position)

def fresh : Check Nat :=
  modifyGet fun env => (env.size, { env with size := env.size + 1 })

def node (kind : NodeKind) (children : List Node) : Check Node := do
  return ⟨← fresh, (← get).line, kind, children⟩

def declare (name : String) (dims : List Nat) : Check Nat :=
  modifyGet fun env =>
    let number := env.symbols.size
    let env := env.updateCurrent fun block => { block with vars := block.vars ++ [number] }
    (number, { env with
      symbols := env.symbols.push { name, dims, scope := env.current.id } })

def setType (number : Nat) (type : Option ValueType) : Check Unit :=
  modify fun env => { env with symbols := env.symbols.modify number ({ · with type }) }

/-- Puts a finished statement into the innermost block. -/
def append (statement : Node) : Check Unit :=
  modify fun env => env.updateCurrent fun block =>
    { block with statements := block.statements.push statement }

/-- Puts the current line's statement into the innermost block. -/
def attach (statement : Node) : Check Unit := do
  append statement
  modify Env.markLine

def openBlock (opening : Parse.Opening) : Check Unit := do
  let id ← fresh
  modify fun env =>
    { env with blocks := { opening, block := { id, line := env.line } } :: env.blocks }

end Check

namespace Parse

/-- Fails for what cannot follow at the place reached in the stream. -/
def failHere {α : Type} (fault : GrammarFault) : Parse α := do
  throw (← Check.diagnose (.grammar fault) (← get).position?)

def advance : Parse Token := do
  match (← get).next? with
  | some (token, rest) =>
    set rest
    return token
  | none => failHere .endOfSource

def expect (kind : TokenKind) : Parse Token := do
  match (← get).consume kind with
  | .ok (token, rest) =>
    set rest
    return token
  | .error (.mismatch found expected) => Check.failAt found (.mismatch found.kind expected)
  | .error .endOfSource => failHere .endOfSource

def accept? (kind : TokenKind) : Parse (Option Token) := do
  match (← get).consume kind with
  | .ok (token, rest) =>
    set rest
    return some token
  | .error _ => return none

def accept (kind : TokenKind) : Parse Bool :=
  return (← accept? kind).isSome

def peekKind? : Parse (Option TokenKind) :=
  return (← get).peekKind?

/-- The results of `item`, until it has none. Each item must read a token, so there are at most as
many items as there are tokens left. -/
def many {α : Type} (item : Parse (Option α)) : Parse (List α) := do
  go (← get).rest.length
where
  go : Nat → Parse (List α)
    | 0 => return []
    | bound + 1 => do
      match ← item with
      | none => return []
      | some a => return a :: (← go bound)

end Parse

end LineBasic
