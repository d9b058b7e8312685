import LineBasic.Parse.Statement

/-!
Whole programs: statements to the end of the tokens, all blocks closed, all jumps to lines that can
be reached.
-/

namespace LineBasic

namespace Parse

/-- Statements to the end of the tokens. Each of them reads a token. -/
def statements : Nat → Parse Unit
  | 0 => return ()
  | bound + 1 => do
    if (← get).atEnd then
      return ()
    statement
    statements bound

/-- Every loop and branch must be closed; of several open ones the outermost is named. -/
def checkClosed : Parse Unit := do
  match (← getThe Env).blocks.getLast? with
  | none => return ()
  | some outermost =>
    let fault := GrammarFault.neverClosed outermost.opening.keyword outermost.opening.line
    throw { fault := .grammar fault }

/-- A jump must lead to a statement with code, in the jump's own block or in one around it. -/
def checkJump (jump : Jump) : Parse Unit := do
  let report (fault : SemanticFault) : Parse Unit :=
    Check.report { fault := .semantic fault, line := jump.line, position := jump.position }
  match (← getThe Env).lines.lookup jump.target with
  | some (some block) =>
    if jump.scopes.head? = some block then
      return ()
    else if block ∈ jump.scopes then
      Check.record (.warned (.leavesScope jump.target jump.line))
    else
      report (.targetNested jump.target)
  | some none => report (.targetNotExecutable jump.target)
  | none => report (.targetMissing jump.target)

/-- All statements and the checks that need all of them. -/
def program : Parse Unit := do
  statements (← get).rest.length
  checkClosed
  (← getThe Env).jumps.toList.forM checkJump

end Parse

/-- The program that tokens stand for, or what is wrong with them. If `collect` is set, a semantic
fault does not end the parse. -/
def parse (tokens : List Token) (collect : Bool) : Report Program :=
  let (outcome, env) := ((Parse.program.run (.ofTokens tokens)).run).run { collect }
  let errors := match outcome with
    | .ok _ => env.errors
    | .error diagnostic => env.errors.push diagnostic
  match Diagnostics.ofList? errors.toList with
  | some diagnostics => ⟨.error diagnostics, env.log.toList⟩
  | none =>
    let event := Event.parsed env.lines.length env.size env.symbols.size
    ⟨.ok env.toProgram, env.log.toList ++ [event]⟩

end LineBasic
