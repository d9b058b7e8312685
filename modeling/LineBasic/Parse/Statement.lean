import LineBasic.Parse.Initializer

/-!
Statements, one to a numbered line.
-/

namespace LineBasic.Parse

/-- The value of a line number, which counts in 32 bits. -/
def lineNumber (token : Token) : Parse Nat := do
  match (Text.natural? token.text.toList).filter (· < 0x100000000) with
  | some number => return number
  | none => Check.failAt token (.lineNumberRange token.text)

/-- The number at the start of a line. No line has the number of another. -/
def lineLabel : Parse Unit := do
  let token ← advance
  if token.kind ≠ .literal .integer then
    Check.failAt token (.lineNumberExpected token.kind)
  let number ← lineNumber token
  if (← getThe Env).lines.any fun line => line.1 == number then
    Check.failAt token (.duplicateLine number)
  modifyThe Env fun env =>
    { env with line := number, lines := (number, none) :: env.lines }

/-- `[LET] name[i]... = value`, after the name. -/
def letStatement (name : Token) : Parse Unit := do
  let indices ← indices expression
  let _ ← expect (.operator .equal)
  let value ← expression
  let target ← Check.writtenVariable name indices
  Check.attach (← Check.assignment name target value)

/-- `GOTO line`, after the keyword. -/
def gotoStatement : Parse Unit := do
  let token ← expect (.literal .integer)
  let target ← lineNumber token
  Check.attach (← Check.node (.goto target) [])
  modifyThe Env fun env =>
    { env with jumps := env.jumps.push {
        target
        line := env.line
        scopes := env.scopes.map Block.id
        position := token.position } }

/-- `FOR name = start TO limit [STEP step]`, after the keyword. -/
def forStatement : Parse Unit := do
  let name ← expect .identifier
  let _ ← expect (.operator .equal)
  let start ← expression
  let target ← Check.writtenVariable name []
  let start ← Check.assignment name target start
  let _ ← expect (.keyword .TO)
  let limit ← expression
  let step ← if ← accept (.keyword .STEP) then expression else Check.literalNode "1" .int
  let line := (← getThe Env).line
  if let .literal value := step.kind then
    if value.text.toList.head? = some '-' then
      Check.record (.warned (.countsDown line value.text))
  let id ← Check.fresh
  modifyThe Env Env.markLine
  Check.openBlock (.loop id line start limit step)

/-- `IF lhs comparator rhs [THEN]`, after the keyword. -/
def ifStatement : Parse Unit := do
  let lhs ← expression
  let token ← advance
  match token.kind with
  | .operator comparator =>
    if !comparator.isComparator then
      Check.failAt token (.comparatorExpected token.kind)
    let rhs ← expression
    let condition ← Check.binary comparator token lhs rhs
    let _ ← accept (.keyword .THEN)
    let id ← Check.fresh
    modifyThe Env Env.markLine
    Check.openBlock (.branch id (← getThe Env).line condition)
  | kind => Check.failAt token (.comparatorExpected kind)

/-- Closes the first block of the innermost branch and opens its second one. -/
def elseStatement (keyword : Token) : Parse Unit := do
  match (← getThe Env).blocks with
  | ⟨.branch id line condition, consequence⟩ :: outer =>
    modifyThe Env fun env => { env with blocks := outer }
    Check.openBlock (.otherwise id line condition consequence.node)
  | _ => Check.failAt keyword .elseWithoutIf

/-- Closes the innermost block, and the loop or branch it belongs to. -/
def endStatement (keyword : Token) : Parse Unit := do
  match (← getThe Env).blocks with
  | ⟨opening, block⟩ :: outer =>
    modifyThe Env fun env => { env with blocks := outer }
    Check.append (opening.close block.node)
  | [] => Check.failAt keyword .endWithoutOpening

/-- The format at the start of `PRINT` and `READ`. -/
def format (statement : Keyword) : Parse Node := do
  if (← peekKind?) = some (.literal .text) then
    Check.literal (← advance) .text false
  else
    let position := (← get).position?
    Check.report (← Check.diagnose (.semantic (.formatExpected statement)) position)
    expression

/-- `PRINT format [, value]...`, after the keyword. -/
def printStatement : Parse Unit := do
  let format ← format .PRINT
  let id ← Check.fresh
  let arguments ← many do
    if ← accept (.separator .comma) then return some (← expression) else return none
  Check.attach ⟨id, (← getThe Env).line, .print, format :: arguments⟩

/-- `PRINTLN [name[i]...]`, after the keyword. -/
def printlnStatement : Parse Unit := do
  let id ← Check.fresh
  let line := (← getThe Env).line
  if (← get).peek?.all Token.isNewline then
    let format ← Check.literalNode "\"\\n\"" .string
    Check.attach ⟨id, line, .println, [format]⟩
  else
    let name ← expect .identifier
    let argument ← variableRead expression name
    let text := if (← getThe Env).type? argument = some .string then "\"%s\\n\"" else "\"%d\\n\""
    let format ← Check.literalNode text .string
    Check.attach ⟨id, line, .println, [format, argument]⟩

/-- One variable to read. It is an integer unless it has a type already. -/
def readTarget : Parse (Option Node) := do
  if ← accept (.separator .comma) then
    let name ← expect .identifier
    let indices ← indices expression
    let target ← Check.writtenVariable name indices
    if let .reference number := target.kind then
      if (← getThe Env).type? target = none then
        Check.setType number (some .int)
    return some target
  else
    return none

/-- `READ format [, name[i]...]...`, after the keyword. -/
def readStatement : Parse Unit := do
  let format ← format .READ
  let id ← Check.fresh
  let targets ← many readTarget
  Check.attach ⟨id, (← getThe Env).line, .read, format :: targets⟩

def statementBody (token : Token) : Parse Unit :=
  match token.kind with
  | .keyword .LET => do letStatement (← expect .identifier)
  | .identifier => letStatement token
  | .keyword .DIM => declaration
  | .keyword .GOTO => gotoStatement
  | .keyword .FOR => forStatement
  | .keyword .IF => ifStatement
  | .keyword .ELSE => elseStatement token
  | .keyword .END => endStatement token
  | .keyword .PRINT => printStatement
  | .keyword .PRINTLN => printlnStatement
  | .keyword .READ => readStatement
  | .keyword .REM => return ()
  | kind => Check.failAt token (.statementExpected kind)

/-- One line: its number, its statement and its newline. -/
def statement : Parse Unit := do
  lineLabel
  let token ← advance
  statementBody token
  Check.record (.statement (← getThe Env).line token.text)
  if !(← accept (.separator .newline)) then
    failHere (.lineEndExpected token.text (← peekKind?))

end LineBasic.Parse
