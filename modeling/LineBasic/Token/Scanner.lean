import LineBasic.Diagnostic.Basic

/-!
Scanning a source text into tokens.
-/

namespace LineBasic

/-- A place in the text with the characters that follow it. `offset` counts bytes. -/
structure Cursor where
  rest : List Char
  offset : Nat
  position : Position

namespace Cursor

def ofSource (source : String) : Cursor :=
  ⟨source.toList, 0, ⟨1, 1⟩⟩

def advance : Nat → Cursor → Cursor
  | 0, cursor => cursor
  | _ + 1, ⟨[], offset, position⟩ => ⟨[], offset, position⟩
  | count + 1, ⟨c :: rest, offset, position⟩ =>
    advance count ⟨rest, offset + c.utf8Size, position.next c⟩

@[simp] theorem rest_advance (count : Nat) (cursor : Cursor) :
    (cursor.advance count).rest = cursor.rest.drop count := by
  induction count generalizing cursor with
  | zero => rfl
  | succ count ih =>
    obtain ⟨rest, offset, position⟩ := cursor
    cases rest with
    | nil => simp [advance]
    | cons c rest => simp [advance, ih]

end Cursor

/-- The blanks between the tokens of a line. -/
def isGap (c : Char) : Bool :=
  c == ' ' || c == '\t' || c == '\r'

def isLetter (c : Char) : Bool :=
  c.isAlpha || c == '_'

def isWordChar (c : Char) : Bool :=
  isLetter c || c.isDigit

/-- What stands at the cursor: a token or a fault, the number of characters it takes after the
first one, and the number of characters dropped behind it. -/
structure Lexeme where
  outcome : Except LexicalFault TokenKind
  more : Nat := 0
  dropped : Nat := 0

namespace Lexeme

def ofKind (kind : TokenKind) (more : Nat := 0) : Lexeme :=
  { outcome := .ok kind, more }

def ofFault (fault : LexicalFault) (more : Nat := 0) : Lexeme :=
  { outcome := .error fault, more }

/-- The length of what follows an opening quote, and whether a quote closes it. A backslash keeps
the next character from closing the string; a newline ends the search in any case. -/
def stringTail : List Char → Bool × Nat
  | [] => (false, 0)
  | '"' :: _ => (true, 1)
  | '\n' :: _ => (false, 1)
  | '\\' :: '\n' :: _ => (false, 2)
  | '\\' :: _ :: rest =>
    let (closed, length) := stringTail rest
    (closed, length + 2)
  | '\\' :: [] => (false, 1)
  | _ :: rest =>
    let (closed, length) := stringTail rest
    (closed, length + 1)

def string (rest : List Char) : Lexeme :=
  match stringTail rest with
  | (true, length) => ofKind (.literal .text) length
  | (false, length) => ofFault .unterminatedString length

def digits (rest : List Char) : Nat :=
  (rest.takeWhile Char.isDigit).length

/-- A number that starts with a digit. A point belongs to it only if a digit follows. -/
def number (rest : List Char) : Lexeme :=
  let whole := digits rest
  match rest.drop whole with
  | '.' :: d :: fraction =>
    if d.isDigit then ofKind (.literal .decimal) (whole + 2 + digits fraction)
    else ofKind (.literal .integer) whole
  | _ => ofKind (.literal .integer) whole

/-- A number that starts with its point. -/
def fraction (rest : List Char) : Lexeme :=
  match digits rest with
  | 0 => ofFault (.unexpectedCharacter '.')
  | length => ofKind (.literal .decimal) length

/-- The length of blanks and a second word `TO`, if they follow. -/
def secondWord (rest : List Char) : Option Nat :=
  let blanks := (rest.takeWhile fun c => c == ' ' || c == '\t').length
  match rest.drop blanks with
  | 'T' :: 'O' :: after =>
    if blanks = 0 || after.head?.any isWordChar then none else some (blanks + 2)
  | _ => none

/-- A reserved word or an identifier. `GO TO` is one reserved word, and `REM` drops the rest of
its line. -/
def word (first : Char) (rest : List Char) : Lexeme :=
  let tail := rest.takeWhile isWordChar
  let after := rest.drop tail.length
  let text := String.ofList (first :: tail)
  match (if text = "GO" then secondWord after else none), Keyword.ofSpelling? text with
  | some length, _ => ofKind (.keyword .GOTO) (tail.length + length)
  | none, some .REM =>
    { outcome := .ok (.keyword .REM), more := tail.length,
      dropped := (after.takeWhile (· != '\n')).length }
  | none, some keyword => ofKind (.keyword keyword) tail.length
  | none, none => ofKind .identifier tail.length

/-- The lexeme that starts with `first`, which is no gap. Of two operators the longer one wins. -/
def scan (first : Char) (rest : List Char) : Lexeme :=
  match first, rest with
  | '\n', _ => ofKind (.separator .newline)
  | '(', _ => ofKind (.separator .leftParen)
  | ')', _ => ofKind (.separator .rightParen)
  | '[', _ => ofKind (.separator .leftBracket)
  | ']', _ => ofKind (.separator .rightBracket)
  | '\x7b', _ => ofKind (.separator .leftBrace)
  | '\x7d', _ => ofKind (.separator .rightBrace)
  | ',', _ => ofKind (.separator .comma)
  | '+', _ => ofKind (.operator .plus)
  | '-', _ => ofKind (.operator .minus)
  | '*', _ => ofKind (.operator .star)
  | '/', _ => ofKind (.operator .slash)
  | '^', _ => ofKind (.operator .caret)
  | '=', '=' :: _ => ofKind (.operator .same) 1
  | '=', _ => ofKind (.operator .equal)
  | '<', '=' :: _ => ofKind (.operator .lessEqual) 1
  | '<', '>' :: _ => ofKind (.operator .notEqual) 1
  | '<', _ => ofKind (.operator .less)
  | '>', '=' :: _ => ofKind (.operator .greaterEqual) 1
  | '>', _ => ofKind (.operator .greater)
  | '"', _ => string rest
  | '.', _ => fraction rest
  | _, _ =>
    if first.isDigit then number rest
    else if isLetter first then word first rest
    else ofFault (.unexpectedCharacter first)

end Lexeme

namespace Cursor

/-- One step of the scan: a token or the fault found in its place, and the cursor behind it. -/
structure Step (start : Cursor) where
  item : Except Diagnostic Token
  next : Cursor
  shorter : next.rest.length < start.rest.length

/-- The cursor before the next character that is no gap. -/
def skipGaps (cursor : Cursor) : Cursor :=
  cursor.advance (cursor.rest.takeWhile isGap).length

theorem length_rest_skipGaps (cursor : Cursor) :
    cursor.skipGaps.rest.length ≤ cursor.rest.length := by
  simp [skipGaps]

/-- The next token of the text. There is none once only gaps are left. -/
def step? (cursor : Cursor) : Option (Step cursor) :=
  let start := cursor.skipGaps
  match h : start.rest with
  | [] => none
  | first :: rest =>
    let lexeme := Lexeme.scan first rest
    let stop := start.advance (lexeme.more + 1)
    some {
      item := match lexeme.outcome with
        | .ok kind => .ok {
            kind
            text := String.ofList (start.rest.take (lexeme.more + 1))
            start := start.offset
            stop := stop.offset
            position := start.position }
        | .error fault => .error { fault := .lexical fault, position := some start.position }
      next := stop.advance lexeme.dropped
      shorter := by
        have := cursor.length_rest_skipGaps
        have : start.rest.length = rest.length + 1 := by rw [h]; rfl
        simp only [stop, rest_advance, List.length_drop]
        simp only [start] at *
        omega }

def scan (cursor : Cursor) : List (Except Diagnostic Token) :=
  match cursor.step? with
  | none => []
  | some step => step.item :: scan step.next
termination_by cursor.rest.length
decreasing_by exact step.shorter

end Cursor

def scan (source : String) : List (Except Diagnostic Token) :=
  (Cursor.ofSource source).scan

/-- Drops the newlines that end no statement: those at the start and those after a newline. -/
def collapseNewlines (afterNewline : Bool) : List Token → List Token
  | [] => []
  | token :: rest =>
    if token.isNewline && afterNewline then collapseNewlines true rest
    else token :: collapseNewlines token.isNewline rest

/-- The newline that ends a text which has none at its end. -/
def finalNewline (source : String) : Token :=
  let stop := (Cursor.ofSource source).advance source.length
  { kind := .separator .newline, text := "\n", start := stop.offset, stop := stop.offset,
    position := stop.position }

/-- The tokens of a text, or its first fault. The last token, if there is one, is a newline. -/
def tokenize (source : String) : Except Diagnostic (List Token) := do
  let tokens := collapseNewlines true (← (scan source).mapM id)
  if tokens.getLast?.all Token.isNewline then return tokens
  else return tokens ++ [finalNewline source]

end LineBasic
