import LineBasic.Parse.Build

/-!
Expressions: runs of operands with arithmetic operators between them.
-/

namespace LineBasic.Parse

def index (expression : Parse Node) : Parse (Option Node) := do
  match ← accept? (.separator .leftBracket) with
  | none => return none
  | some bracket =>
    let index ← expression
    let _ ← expect (.separator .rightBracket)
    Check.checkIndex bracket index
    return some index

def indices (expression : Parse Node) : Parse (List Node) :=
  many (index expression)

def variableRead (expression : Parse Node) (name : Token) : Parse Node := do
  let indices ← indices expression
  Check.readVariable name indices

def parenthesized (expression : Parse Node) : Parse Node := do
  let inner ← expression
  let _ ← expect (.separator .rightParen)
  return inner

/-- What follows a unary minus. A number takes the sign itself. -/
def negation (expression : Parse Node) (minus : Token) : Parse Node := do
  let token ← advance
  match token.kind with
  | .literal .integer => Check.literal token .integer true
  | .literal .decimal => Check.literal token .decimal true
  | .identifier => Check.negated minus (← variableRead expression token)
  | .separator .leftParen => Check.negated minus (← parenthesized expression)
  | kind => Check.failAt token (.negatedOperandExpected kind)

def operand (expression : Parse Node) : Parse Node := do
  let token ← advance
  match token.kind with
  | .operator .minus => negation expression token
  | .separator .leftParen => parenthesized expression
  | .identifier => variableRead expression token
  | .literal kind => Check.literal token kind false
  | kind => Check.failAt token (.expressionExpected kind)

/-- An arithmetic operator and the operand after it, if an operator follows. -/
def tail (expression : Parse Node) : Parse (Option Check.Tail) := do
  match ← peekKind? with
  | some (.operator operator) =>
    if operator.isArithmetic then
      let token ← advance
      return some (operator, token, ← operand expression)
    else
      return none
  | _ => return none

/-- An expression whose inner expressions are read by `expression`. -/
def expressionOver (expression : Parse Node) : Parse Node := do
  let first ← operand expression
  let rest ← many (tail expression)
  Check.join first rest

/-- An expression nested at most `depth` deep. An inner expression comes after a token of its own,
so it has at most one level less than there are tokens. -/
def expressionWithin : Nat → Parse Node
  | 0 => failHere .endOfSource
  | depth + 1 => expressionOver (expressionWithin depth)

/-- An expression. No more levels are needed than there are tokens left. -/
def expression : Parse Node := do
  expressionWithin (← get).rest.length

end LineBasic.Parse
