import LineBasic.Text.Quoted
import LineBasic.Token.Basic
import LineBasic.ValueType

/-!
What can be wrong with a program. Each stage has its own causes, and each cause one wording.
-/

namespace LineBasic

inductive Stage where
  | lexical | grammar | semantic | emission
deriving DecidableEq, Inhabited

def Stage.all : List Stage :=
  [.lexical, .grammar, .semantic, .emission]

def Stage.describe : Stage → String
  | .lexical => "lexical error"
  | .grammar => "syntax error"
  | .semantic => "semantic error"
  | .emission => "code generation error"

/-- Text that is not made of tokens. -/
inductive LexicalFault where
  | unexpectedCharacter (c : Char)
  | unterminatedString
deriving DecidableEq

def LexicalFault.message : LexicalFault → String
  | unexpectedCharacter c => s!"unexpected character {Text.quoteChar c}"
  | unterminatedString => "unterminated string literal"

/-- Tokens that do not form numbered statements, or statements that do not nest. -/
inductive GrammarFault where
  | endOfSource
  | mismatch (found expected : TokenKind)
  | lineNumberExpected (found : TokenKind)
  | lineNumberRange (text : String)
  | duplicateLine (number : Nat)
  | statementExpected (found : TokenKind)
  | lineEndExpected (statement : String) (found : Option TokenKind)
  | expressionExpected (found : TokenKind)
  | negatedOperandExpected (found : TokenKind)
  | comparatorExpected (found : TokenKind)
  | elementExpected (found : TokenKind)
  | numberExpected (found : TokenKind)
  | elseWithoutIf
  | endWithoutOpening
  | neverClosed (opening : Keyword) (line : Nat)
deriving DecidableEq

def GrammarFault.message : GrammarFault → String
  | endOfSource => "unexpected end of source code"
  | mismatch found expected =>
    s!"encountered unexpected {found.describe}, expected {expected.describe}"
  | lineNumberExpected found => s!"expected a line number, found {found.describe}"
  | lineNumberRange text => s!"line number {text} is out of range"
  | duplicateLine number => s!"duplicate line number {number}"
  | statementExpected found => s!"expected a statement, found {found.describe}"
  | lineEndExpected statement found =>
    let found := (found.map TokenKind.describe).getD "end of source"
    s!"expected end of line after {statement} statement, found {found}"
  | expressionExpected found => s!"expected an expression, found {found.describe}"
  | negatedOperandExpected found =>
    s!"expected a number, variable or '(' after unary minus, found {found.describe}"
  | comparatorExpected found => s!"expected a comparison operator, found {found.describe}"
  | elementExpected found => s!"unexpected {found.describe} in array initializer"
  | numberExpected found => s!"expected a number after '-', found {found.describe}"
  | elseWithoutIf => "ELSE without a matching IF"
  | endWithoutOpening => "END without a matching FOR or IF"
  | neverClosed opening line =>
    s!"{opening.spelling} opened at line {line} is never closed with END"

/-- Statements that do not fit what is declared. -/
inductive SemanticFault where
  | formatExpected (statement : Keyword)
  | operandTypes (operator : String) (lhs rhs : ValueType)
  | integerRange (text : String)
  | indexType (type : ValueType)
  | notInitialized (name : String)
  | wrongDimensions (name : String) (expected given : Nat)
  | assignedType (name : String) (expected found : ValueType)
  | dimensionNotPositive (name size : String)
  | alreadyDeclared (name : String)
  | arrayTooLarge (name : String)
  | initializerTooDeep (name : String) (dimensions : Nat)
  | elementOutside (index : List Nat) (name : String)
  | targetNested (target : Nat)
  | targetNotExecutable (target : Nat)
  | targetMissing (target : Nat)
  | notAScope (node name : String)
deriving DecidableEq

def SemanticFault.message : SemanticFault → String
  | formatExpected statement =>
    s!"The first argument of {statement.spelling} must be a string literal."
  | operandTypes operator lhs rhs =>
    s!"Type mismatch. Operator {operator}: {ValueType.incompatible lhs rhs}."
  | integerRange text => s!"Integer literal {text} does not fit in 32 bits."
  | indexType type => s!"Array index must be int, not {type.name}."
  | notInitialized name => s!"Variable {name} is not initialized."
  | wrongDimensions name expected given =>
    s!"Wrong dimensions. The variable {name} has {expected} dimensions, not {given}."
  | assignedType name expected found =>
    s!"Type mismatch. Variable {name} is {expected.name}, not {found.name}."
  | dimensionNotPositive name size =>
    s!"Dimension of {name} must be a positive integer, not {size}."
  | alreadyDeclared name => s!"Variable {name} is already declared in this scope."
  | arrayTooLarge name => s!"Array {name} is too large."
  | initializerTooDeep name dimensions =>
    s!"Initializer of {name} is nested deeper than its {dimensions} dimensions."
  | elementOutside index name =>
    s!"Initializer element {Text.bracketed index} is outside the shape of {name}."
  | targetNested target => s!"GOTO target {target} is inside a nested scope."
  | targetNotExecutable target => s!"GOTO target {target} is not an executable statement."
  | targetMissing target => s!"GOTO target {target} does not exist."
  | notAScope node name => s!"{node} node can't own variable {name}"

/-- Trees that have no code. A node is named by its kind. -/
inductive EmissionFault where
  | frameTooLarge (name : String)
  | unexpectedStatement (node : String)
  | unexpectedExpression (node : String)
  | malformed (node : String) (children : Nat)
  | textComparator (operator : Operator)
  | comparatorUnknown (operator : Operator)
  | formatNotText
  | invalidInteger (text : String)
  | unlabelledText (text : String)
  | floatUnsupported
  | variableExpected (node : String)
  | noStorage (name : String)
  | textOperator (operator : Operator)
  | comparatorMisplaced (operator : Operator)
deriving DecidableEq

def EmissionFault.message : EmissionFault → String
  | frameTooLarge name => s!"stack frame is too large to hold {name}"
  | unexpectedStatement node => s!"unexpected {node} node in statement position"
  | unexpectedExpression node => s!"unexpected {node} node in expression"
  | malformed node children => s!"malformed {node} node with {children} children"
  | textComparator operator =>
    s!"unsupported comparator {operator.describe} for string operands"
  | comparatorUnknown operator => s!"unsupported comparator {operator.describe}"
  | formatNotText => "format argument is not a string literal"
  | invalidInteger text => s!"invalid integer literal {text}"
  | unlabelledText text => s!"string literal {text} has no label"
  | floatUnsupported => "float code generation is not supported"
  | variableExpected node => s!"expected a variable, found {node} node"
  | noStorage name => s!"variable {name} has no storage"
  | textOperator operator => s!"unsupported operator {operator.describe} for string operands"
  | comparatorMisplaced operator =>
    s!"comparator {operator.describe} can only be used in an IF condition"

/-- A fault of any stage. A `stated` fault comes with its own wording. -/
inductive Fault where
  | lexical (fault : LexicalFault)
  | grammar (fault : GrammarFault)
  | semantic (fault : SemanticFault)
  | emission (fault : EmissionFault)
  | stated (stage : Stage) (message : String)
deriving DecidableEq

namespace Fault

def stage : Fault → Stage
  | lexical _ => .lexical
  | grammar _ => .grammar
  | semantic _ => .semantic
  | emission _ => .emission
  | stated stage _ => stage

def message : Fault → String
  | lexical fault => fault.message
  | grammar fault => fault.message
  | semantic fault => fault.message
  | emission fault => fault.message
  | stated _ message => message

end Fault

end LineBasic
