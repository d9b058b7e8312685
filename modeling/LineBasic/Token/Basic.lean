/-!
Tokens: the reserved words, marks, operators and literals a source text is made of.
-/

namespace LineBasic

/-- A place in the text. Lines and columns count from one, and columns count characters. -/
structure Position where
  line : Nat
  column : Nat
deriving DecidableEq, Inhabited

/-- The place after a character that stands at `p`. -/
def Position.next (p : Position) (c : Char) : Position :=
  if c = '\n' then ⟨p.line + 1, 1⟩ else ⟨p.line, p.column + 1⟩

inductive Keyword where
  | LET | DIM | GOTO | FOR | TO | STEP | END | IF | THEN | ELSE | PRINT | PRINTLN | READ | REM
deriving DecidableEq, Inhabited

namespace Keyword

def all : List Keyword :=
  [LET, DIM, GOTO, FOR, TO, STEP, END, IF, THEN, ELSE, PRINT, PRINTLN, READ, REM]

def spelling : Keyword → String
  | LET => "LET"
  | DIM => "DIM"
  | GOTO => "GOTO"
  | FOR => "FOR"
  | TO => "TO"
  | STEP => "STEP"
  | END => "END"
  | IF => "IF"
  | THEN => "THEN"
  | ELSE => "ELSE"
  | PRINT => "PRINT"
  | PRINTLN => "PRINTLN"
  | READ => "READ"
  | REM => "REM"

/-- The reserved word with this spelling. Case matters. -/
def ofSpelling? (text : String) : Option Keyword :=
  all.find? fun keyword => keyword.spelling == text

theorem ofSpelling?_spelling (keyword : Keyword) :
    ofSpelling? keyword.spelling = some keyword := by
  cases keyword <;> decide

end Keyword

/-- The marks that separate the parts of a statement; the newline separates statements. -/
inductive Separator where
  | leftParen | rightParen | leftBracket | rightBracket | leftBrace | rightBrace | comma | newline
deriving DecidableEq, Inhabited

namespace Separator

def all : List Separator :=
  [leftParen, rightParen, leftBracket, rightBracket, leftBrace, rightBrace, comma, newline]

def describe : Separator → String
  | leftParen => "'('"
  | rightParen => "')'"
  | leftBracket => "'['"
  | rightBracket => "']'"
  | leftBrace => "'\x7b'"
  | rightBrace => "'\x7d'"
  | comma => "','"
  | newline => "newline"

end Separator

/-- Arithmetic operators and comparators. `=` compares or assigns, `==` only compares. -/
inductive Operator where
  | plus | minus | star | slash | caret
  | equal | same | notEqual | less | lessEqual | greater | greaterEqual
deriving DecidableEq, Inhabited

namespace Operator

def all : List Operator :=
  [plus, minus, star, slash, caret, equal, same, notEqual, less, lessEqual, greater, greaterEqual]

def symbol : Operator → String
  | plus => "+"
  | minus => "-"
  | star => "*"
  | slash => "/"
  | caret => "^"
  | equal => "="
  | same => "=="
  | notEqual => "<>"
  | less => "<"
  | lessEqual => "<="
  | greater => ">"
  | greaterEqual => ">="

def ofSymbol? (text : String) : Option Operator :=
  all.find? fun operator => operator.symbol == text

theorem ofSymbol?_symbol (operator : Operator) : ofSymbol? operator.symbol = some operator := by
  cases operator <;> decide

def describe (operator : Operator) : String :=
  "'" ++ operator.symbol ++ "'"

/-- The operators that bind tighter than `+` and `-`. -/
def isMultiplicative : Operator → Bool
  | star | slash | caret => true
  | _ => false

def isArithmetic : Operator → Bool
  | plus | minus | star | slash | caret => true
  | _ => false

def isComparator (operator : Operator) : Bool :=
  !operator.isArithmetic

end Operator

inductive LiteralKind where
  | integer | decimal | text
deriving DecidableEq, Inhabited

namespace LiteralKind

def all : List LiteralKind :=
  [integer, decimal, text]

def describe : LiteralKind → String
  | integer => "integer"
  | decimal => "decimal"
  | text => "string"

end LiteralKind

inductive TokenKind where
  | identifier
  | keyword (word : Keyword)
  | separator (mark : Separator)
  | operator (operator : Operator)
  | literal (kind : LiteralKind)
deriving DecidableEq, Inhabited

namespace TokenKind

def all : List TokenKind :=
  identifier :: Keyword.all.map keyword ++ Separator.all.map separator ++
    Operator.all.map operator ++ LiteralKind.all.map literal

def describe : TokenKind → String
  | identifier => "identifier"
  | keyword word => "keyword " ++ word.spelling
  | separator mark => "separator " ++ mark.describe
  | operator op => "operator " ++ op.describe
  | literal kind => kind.describe ++ " literal"

def ofDescription? (text : String) : Option TokenKind :=
  all.find? fun kind => kind.describe == text

theorem ofDescription?_describe (kind : TokenKind) :
    ofDescription? kind.describe = some kind := by
  cases kind with
  | identifier => decide
  | keyword word => cases word <;> decide
  | separator mark => cases mark <;> decide
  | operator op => cases op <;> decide
  | literal kind => cases kind <;> decide

end TokenKind

/-- A token with the text it was scanned from. A string literal keeps its quotes. `start` and `stop`
count bytes of the source, `stop` being the first one after the token. -/
structure Token where
  kind : TokenKind
  text : String
  start : Nat
  stop : Nat
  position : Position
deriving DecidableEq, Inhabited

def Token.isNewline (token : Token) : Bool :=
  token.kind == .separator .newline

end LineBasic
