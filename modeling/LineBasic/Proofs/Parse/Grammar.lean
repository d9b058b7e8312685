import LineBasic.Text.Numeral
import LineBasic.Token.Basic

/-!
The grammar of programs, over lists of tokens. A program is a list of numbered lines; loops and
branches are opened and closed by lines of their own, so the lines are read with the constructs that
are open.
-/

namespace LineBasic.Grammar

open List

/-- Any number of phrases, one after another. -/
inductive Many (phrase : List Token → Prop) : List Token → Prop
  | nil : Many phrase []
  | cons {first rest : List Token} : phrase first → Many phrase rest → Many phrase (first ++ rest)

inductive Optional (phrase : List Token → Prop) : List Token → Prop
  | none : Optional phrase []
  | some {tokens : List Token} : phrase tokens → Optional phrase tokens

section Over

/-! The phrases of an expression, over the expressions in their brackets and parentheses. -/

variable (inner : List Token → Prop)

/-- `[index]` -/
inductive Index : List Token → Prop
  | mk {left right : Token} {index : List Token} : left.kind = .separator .leftBracket →
      inner index → right.kind = .separator .rightBracket → Index (left :: (index ++ [right]))

/-- `name[index]...` -/
inductive Reference : List Token → Prop
  | mk {name : Token} {indices : List Token} : name.kind = .identifier →
      Many (Index inner) indices → Reference (name :: indices)

/-- `(expression)` -/
inductive Parenthesized : List Token → Prop
  | mk {left right : Token} {expression : List Token} : left.kind = .separator .leftParen →
      inner expression → right.kind = .separator .rightParen →
      Parenthesized (left :: (expression ++ [right]))

/-- A literal, a variable or an expression in parentheses. A minus may stand before all of them but
a string. -/
inductive Operand : List Token → Prop
  | literal {token : Token} {kind : LiteralKind} : token.kind = .literal kind → Operand [token]
  | reference {tokens : List Token} : Reference inner tokens → Operand tokens
  | parenthesized {tokens : List Token} : Parenthesized inner tokens → Operand tokens
  | negativeLiteral {minus token : Token} {kind : LiteralKind} : minus.kind = .operator .minus →
      token.kind = .literal kind → kind ≠ .text → Operand [minus, token]
  | negatedReference {minus : Token} {tokens : List Token} : minus.kind = .operator .minus →
      Reference inner tokens → Operand (minus :: tokens)
  | negatedParenthesized {minus : Token} {tokens : List Token} : minus.kind = .operator .minus →
      Parenthesized inner tokens → Operand (minus :: tokens)

/-- An arithmetic operator and the operand after it. -/
inductive Tail : List Token → Prop
  | mk {token : Token} {operator : Operator} {operand : List Token} :
      token.kind = .operator operator → operator.isArithmetic → Operand inner operand →
      Tail (token :: operand)

end Over

/-- Operands with arithmetic operators between them. -/
inductive Expression : List Token → Prop
  | mk {operand tails : List Token} : Operand Expression operand → Many (Tail Expression) tails →
      Expression (operand ++ tails)

abbrev Variable : List Token → Prop :=
  Reference Expression

/-- `, phrase` -/
inductive Listed (phrase : List Token → Prop) : List Token → Prop
  | mk {comma : Token} {tokens : List Token} : comma.kind = .separator .comma → phrase tokens →
      Listed phrase (comma :: tokens)

/-- A string, or an expression that does not start with one. -/
inductive Format : List Token → Prop
  | text {token : Token} : token.kind = .literal .text → Format [token]
  | other {tokens : List Token} : Expression tokens →
      (∀ token ∈ tokens.head?, token.kind ≠ .literal .text) → Format tokens

/-- `[size]` -/
inductive Dimension : List Token → Prop
  | mk {left size right : Token} : left.kind = .separator .leftBracket →
      size.kind = .literal .integer → right.kind = .separator .rightBracket →
      Dimension [left, size, right]

/-- Values up to the brace that closes the first of `depth` open braces. -/
inductive Values : Nat → List Token → Prop
  | done : Values 0 []
  | enter {depth : Nat} {token : Token} {rest : List Token} :
      token.kind = .separator .leftBrace → Values (depth + 2) rest →
      Values (depth + 1) (token :: rest)
  | leave {depth : Nat} {token : Token} {rest : List Token} :
      token.kind = .separator .rightBrace → Values depth rest → Values (depth + 1) (token :: rest)
  | comma {depth : Nat} {token : Token} {rest : List Token} :
      token.kind = .separator .comma → Values (depth + 1) rest → Values (depth + 1) (token :: rest)
  | literal {depth : Nat} {token : Token} {kind : LiteralKind} {rest : List Token} :
      token.kind = .literal kind → Values (depth + 1) rest → Values (depth + 1) (token :: rest)
  | negative {depth : Nat} {minus token : Token} {kind : LiteralKind} {rest : List Token} :
      minus.kind = .operator .minus → token.kind = .literal kind → kind ≠ .text →
      Values (depth + 1) rest → Values (depth + 1) (minus :: token :: rest)

/-- Values in braces, with or without `=` before them. -/
inductive Initializer : List Token → Prop
  | plain {brace : Token} {values : List Token} : brace.kind = .separator .leftBrace →
      Values 1 values → Initializer (brace :: values)
  | assigned {equal brace : Token} {values : List Token} : equal.kind = .operator .equal →
      brace.kind = .separator .leftBrace → Values 1 values → Initializer (equal :: brace :: values)

inductive Word (keyword : Keyword) : List Token → Prop
  | mk {token : Token} : token.kind = .keyword keyword → Word keyword [token]

/-- `STEP step` -/
inductive Step : List Token → Prop
  | mk {word : Token} {step : List Token} : word.kind = .keyword .STEP → Expression step →
      Step (word :: step)

/-- A token for a number below 2^32. -/
def IsNumber (token : Token) (number : Nat) : Prop :=
  token.kind = .literal .integer ∧ Text.natural? token.text.toList = some number ∧
    number < 0x100000000

/-- What is open: a loop, or the first or the second block of a branch. -/
inductive Construct where
  | loop | branch | otherwise
deriving DecidableEq

/-- A statement, with the constructs that are open before it and after it, innermost first. -/
inductive Statement : List Construct → List Token → List Construct → Prop
  | assign {opened : List Construct} {equal : Token} {word target value : List Token} :
      Optional (Word .LET) word → Variable target → equal.kind = .operator .equal →
      Expression value → Statement opened (word ++ (target ++ equal :: value)) opened
  | dim {opened : List Construct} {word name : Token} {dimensions initializer : List Token} :
      word.kind = .keyword .DIM → name.kind = .identifier → Many Dimension dimensions →
      Optional Initializer initializer →
      Statement opened (word :: name :: (dimensions ++ initializer)) opened
  | goto {opened : List Construct} {word target : Token} {number : Nat} :
      word.kind = .keyword .GOTO → IsNumber target number → Statement opened [word, target] opened
  | loop {opened : List Construct} {word name equal upTo : Token} {start limit step : List Token} :
      word.kind = .keyword .FOR → name.kind = .identifier → equal.kind = .operator .equal →
      Expression start → upTo.kind = .keyword .TO → Expression limit → Optional Step step →
      Statement opened (word :: name :: equal :: (start ++ upTo :: (limit ++ step))) (.loop :: opened)
  | branch {opened : List Construct} {word comparator : Token} {operator : Operator}
      {lhs rhs ending : List Token} : word.kind = .keyword .IF → Expression lhs →
      comparator.kind = .operator operator → operator.isComparator → Expression rhs →
      Optional (Word .THEN) ending →
      Statement opened (word :: (lhs ++ comparator :: (rhs ++ ending))) (.branch :: opened)
  | otherwise {outer : List Construct} {word : Token} : word.kind = .keyword .ELSE →
      Statement (.branch :: outer) [word] (.otherwise :: outer)
  | close {innermost : Construct} {outer : List Construct} {word : Token} :
      word.kind = .keyword .END → Statement (innermost :: outer) [word] outer
  | print {opened : List Construct} {word : Token} {format arguments : List Token} :
      word.kind = .keyword .PRINT → Format format → Many (Listed Expression) arguments →
      Statement opened (word :: (format ++ arguments)) opened
  | println {opened : List Construct} {word : Token} {argument : List Token} :
      word.kind = .keyword .PRINTLN → Optional Variable argument →
      Statement opened (word :: argument) opened
  | read {opened : List Construct} {word : Token} {format targets : List Token} :
      word.kind = .keyword .READ → Format format → Many (Listed Variable) targets →
      Statement opened (word :: (format ++ targets)) opened
  | remark {opened : List Construct} {word : Token} : word.kind = .keyword .REM →
      Statement opened [word] opened

/-- Lines to the end of the program, where nothing is open. `seen` are the numbers of the lines
before them, which no line has again. -/
inductive Lines : List Nat → List Construct → List Token → Prop
  | nil {seen : List Nat} : Lines seen [] []
  | cons {seen : List Nat} {opened after : List Construct} {label newline : Token} {number : Nat}
      {body rest : List Token} : IsNumber label number → number ∉ seen →
      Statement opened body after → newline.kind = .separator .newline →
      Lines (number :: seen) after rest → Lines seen opened (label :: (body ++ newline :: rest))

def IsProgram (tokens : List Token) : Prop :=
  Lines [] [] tokens

section Inner

variable {inner inner' : List Token → Prop} {tokens : List Token}

theorem Many.imp {phrase phrase' : List Token → Prop} (many : Many phrase tokens)
    (h : ∀ part, part.length ≤ tokens.length → phrase part → phrase' part) : Many phrase' tokens := by
  induction many with
  | nil => exact .nil
  | cons first _ ih =>
    refine .cons (h _ (by simp) first) (ih fun part length isPart => h part ?_ isPart)
    simp only [length_append]
    omega

theorem Index.imp (index : Index inner tokens)
    (h : ∀ part, part.length < tokens.length → inner part → inner' part) : Index inner' tokens := by
  cases index with
  | mk left inside right =>
    refine .mk left (h _ ?_ inside) right
    simp only [length_cons, length_append]
    omega

theorem Reference.imp (reference : Reference inner tokens)
    (h : ∀ part, part.length < tokens.length → inner part → inner' part) :
    Reference inner' tokens := by
  cases reference with
  | mk name indices =>
    refine .mk name (indices.imp fun part length index => index.imp fun inside shorter => ?_)
    exact h inside (by simp only [length_cons]; omega)

theorem Parenthesized.imp (parenthesized : Parenthesized inner tokens)
    (h : ∀ part, part.length < tokens.length → inner part → inner' part) :
    Parenthesized inner' tokens := by
  cases parenthesized with
  | mk left inside right =>
    refine .mk left (h _ ?_ inside) right
    simp only [length_cons, length_append]
    omega

theorem Operand.imp (operand : Operand inner tokens)
    (h : ∀ part, part.length < tokens.length → inner part → inner' part) :
    Operand inner' tokens := by
  cases operand with
  | literal isLiteral => exact .literal isLiteral
  | reference reference => exact .reference (reference.imp h)
  | parenthesized parenthesized => exact .parenthesized (parenthesized.imp h)
  | negativeLiteral minus isLiteral notText => exact .negativeLiteral minus isLiteral notText
  | negatedReference minus reference =>
    exact .negatedReference minus (reference.imp fun part shorter =>
      h part (Nat.lt_succ_of_lt shorter))
  | negatedParenthesized minus parenthesized =>
    exact .negatedParenthesized minus (parenthesized.imp fun part shorter =>
      h part (Nat.lt_succ_of_lt shorter))

theorem Tail.imp (tail : Tail inner tokens)
    (h : ∀ part, part.length < tokens.length → inner part → inner' part) : Tail inner' tokens := by
  cases tail with
  | mk isOperator arithmetic operand =>
    exact .mk isOperator arithmetic (operand.imp fun part shorter =>
      h part (Nat.lt_succ_of_lt shorter))

theorem Operand.length_pos (operand : Operand inner tokens) : 0 < tokens.length := by
  cases operand with
  | literal | negativeLiteral | negatedReference | negatedParenthesized => simp
  | reference reference =>
    cases reference
    simp
  | parenthesized parenthesized =>
    cases parenthesized
    simp

theorem Expression.ne_nil (h : Expression tokens) : tokens ≠ [] := by
  cases h with
  | mk isOperand _ =>
    have positive := isOperand.length_pos
    exact append_ne_nil_of_left_ne_nil (ne_nil_of_length_pos positive) _

/-- What holds of an expression whenever it holds of the expressions inside it holds of all. -/
theorem Expression.induction {motive : List Token → Prop}
    (step : ∀ {operand tails : List Token}, Operand (fun part => Expression part ∧ motive part) operand →
      Many (Tail fun part => Expression part ∧ motive part) tails → motive (operand ++ tails))
    (h : Expression tokens) : motive tokens := by
  generalize eq : tokens.length = length
  induction length using Nat.strongRecOn generalizing tokens with
  | ind length ih =>
    cases h with
    | @mk operand tails isOperand isMany =>
      have positive := isOperand.length_pos
      rw [length_append] at eq
      refine step (isOperand.imp fun part shorter isPart => ?_)
        (isMany.imp fun tail shorter isTail => isTail.imp fun part shorter' isPart => ?_)
      · exact ⟨isPart, ih part.length (by omega) isPart rfl⟩
      · exact ⟨isPart, ih part.length (by omega) isPart rfl⟩

theorem Statement.ne_nil {opened after : List Construct} (h : Statement opened tokens after) :
    tokens ≠ [] := by
  cases h <;> simp

end Inner

/-- The kinds of tokens that expressions are made of. -/
def isExpressive : TokenKind → Bool
  | .identifier | .literal _ => true
  | .separator .leftParen | .separator .rightParen => true
  | .separator .leftBracket | .separator .rightBracket => true
  | .operator operator => operator.isArithmetic
  | _ => false

/-- Tokens that an expression could be made of. -/
def Expressive (tokens : List Token) : Prop :=
  ∀ token ∈ tokens, isExpressive token.kind = true

namespace Expressive

variable {token : Token} {tokens others : List Token} {phrase inner : List Token → Prop}

theorem cons (first : isExpressive token.kind = true) (rest : Expressive tokens) :
    Expressive (token :: tokens) :=
  forall_mem_cons.mpr ⟨first, rest⟩

theorem append (first : Expressive tokens) (second : Expressive others) :
    Expressive (tokens ++ others) := by
  intro token mem
  rcases mem_append.mp mem with mem | mem
  · exact first token mem
  · exact second token mem

theorem nil : Expressive [] := by
  simp [Expressive]

theorem many (h : ∀ part, phrase part → Expressive part) (many : Many phrase tokens) :
    Expressive tokens := by
  induction many with
  | nil => exact .nil
  | cons first _ ih => exact .append (h _ first) ih

section

variable (h : ∀ part, inner part → Expressive part)

include h

theorem reference (reference : Reference inner tokens) :
    Expressive tokens := by
  cases reference with
  | mk isName indices =>
    refine .cons (by rw [isName]; rfl) (many (fun part index => ?_) indices)
    cases index with
    | mk left inside right =>
      exact .cons (by rw [left]; rfl) (.append (h _ inside) (.cons (by rw [right]; rfl) .nil))

theorem parenthesized (parenthesized : Parenthesized inner tokens) : Expressive tokens := by
  cases parenthesized with
  | mk left inside right =>
    exact .cons (by rw [left]; rfl) (.append (h _ inside) (.cons (by rw [right]; rfl) .nil))

theorem operand (operand : Operand inner tokens) :
    Expressive tokens := by
  cases operand with
  | literal isLiteral => exact .cons (by rw [isLiteral]; rfl) .nil
  | reference isReference => exact reference h isReference
  | parenthesized isParenthesized => exact parenthesized h isParenthesized
  | negativeLiteral minus isLiteral =>
    exact .cons (by rw [minus]; rfl) (.cons (by rw [isLiteral]; rfl) .nil)
  | negatedReference minus isReference =>
    exact .cons (by rw [minus]; rfl) (reference h isReference)
  | negatedParenthesized minus isParenthesized =>
    exact .cons (by rw [minus]; rfl) (parenthesized h isParenthesized)

end

theorem expression (h : Expression tokens) : Expressive tokens := by
  refine h.induction fun isOperand isMany => .append (operand (fun _ inside => inside.2) isOperand)
    (many (fun part tail => ?_) isMany)
  cases tail with
  | mk isOperator arithmetic isOperand =>
    exact .cons (by rw [isOperator]; exact arithmetic) (operand (fun _ inside => inside.2) isOperand)

theorem target (h : Variable tokens) : Expressive tokens :=
  reference (fun _ => expression) h

end Expressive

/-- Tokens that all stand on one line. -/
def OneLine (tokens : List Token) : Prop :=
  ∀ token ∈ tokens, token.isNewline = false

namespace OneLine

variable {token : Token} {tokens others : List Token} {phrase : List Token → Prop}

theorem nil : OneLine [] := by
  simp [OneLine]

theorem cons (first : token.kind ≠ .separator .newline) (rest : OneLine tokens) :
    OneLine (token :: tokens) :=
  forall_mem_cons.mpr ⟨by simpa [Token.isNewline] using first, rest⟩

theorem append (first : OneLine tokens) (second : OneLine others) : OneLine (tokens ++ others) := by
  intro token mem
  rcases mem_append.mp mem with mem | mem
  · exact first token mem
  · exact second token mem

theorem many (h : ∀ part, phrase part → OneLine part) (many : Many phrase tokens) :
    OneLine tokens := by
  induction many with
  | nil => exact .nil
  | cons first _ ih => exact .append (h _ first) ih

theorem optional (h : ∀ part, phrase part → OneLine part) (optional : Optional phrase tokens) :
    OneLine tokens := by
  cases optional with
  | none => exact .nil
  | some isPhrase => exact h _ isPhrase

theorem of_expressive (h : Expressive tokens) : OneLine tokens := by
  intro token mem
  cases isNewline : token.isNewline with
  | false => rfl
  | true =>
    have expressive := h token mem
    rw [of_decide_eq_true isNewline] at expressive
    cases expressive

theorem listed (h : ∀ part, phrase part → OneLine part) (listed : Listed phrase tokens) :
    OneLine tokens := by
  cases listed with
  | mk comma isPhrase => exact .cons (by simp [comma]) (h _ isPhrase)

theorem word {keyword : Keyword} (h : Word keyword tokens) : OneLine tokens := by
  cases h with
  | mk isWord => exact .cons (by simp [isWord]) .nil

theorem expression (h : Expression tokens) : OneLine tokens :=
  .of_expressive (.expression h)

theorem reference (h : Variable tokens) : OneLine tokens :=
  .of_expressive (.target h)

theorem format (h : Format tokens) : OneLine tokens := by
  cases h with
  | text isText => exact .cons (by simp [isText]) .nil
  | other isExpression => exact expression isExpression

theorem dimension (h : Dimension tokens) : OneLine tokens := by
  cases h with
  | mk left size right =>
    exact .cons (by simp [left]) (.cons (by simp [size]) (.cons (by simp [right]) .nil))

theorem values {depth : Nat} (h : Values depth tokens) : OneLine tokens := by
  induction h with
  | done => exact .nil
  | enter isMark _ ih | leave isMark _ ih | comma isMark _ ih | literal isMark _ ih =>
    exact .cons (by simp [isMark]) ih
  | negative isMinus isNumber _ _ ih => exact .cons (by simp [isMinus]) (.cons (by simp [isNumber]) ih)

theorem initializer (h : Initializer tokens) : OneLine tokens := by
  cases h with
  | plain isBrace isValues => exact .cons (by simp [isBrace]) (values isValues)
  | assigned isEqual isBrace isValues =>
    exact .cons (by simp [isEqual]) (.cons (by simp [isBrace]) (values isValues))

theorem step (h : Step tokens) : OneLine tokens := by
  cases h with
  | mk isWord isExpression => exact .cons (by simp [isWord]) (expression isExpression)

theorem statement {opened after : List Construct} (h : Statement opened tokens after) :
    OneLine tokens := by
  cases h with
  | assign isWord isTarget isEqual isValue =>
    exact .append (optional (fun _ => word) isWord)
      (.append (reference isTarget) (.cons (by simp [isEqual]) (expression isValue)))
  | dim isWord isName isMany isOptional =>
    exact .cons (by simp [isWord]) (.cons (by simp [isName])
      (.append (many (fun _ => dimension) isMany) (optional (fun _ => initializer) isOptional)))
  | goto isWord isNumber => exact .cons (by simp [isWord]) (.cons (by simp [isNumber.1]) .nil)
  | loop isWord isName isEqual isStart isTo isLimit isStep =>
    exact .cons (by simp [isWord]) (.cons (by simp [isName]) (.cons (by simp [isEqual])
      (.append (expression isStart) (.cons (by simp [isTo])
        (.append (expression isLimit) (optional (fun _ => step) isStep))))))
  | branch isWord isLeft isComparator _ isRight isEnding =>
    exact .cons (by simp [isWord]) (.append (expression isLeft) (.cons (by simp [isComparator])
      (.append (expression isRight) (optional (fun _ => word) isEnding))))
  | otherwise isWord | close isWord | remark isWord => exact .cons (by simp [isWord]) .nil
  | print isWord isFormat isMany =>
    exact .cons (by simp [isWord]) (.append (format isFormat)
      (many (fun _ => listed fun _ => expression) isMany))
  | println isWord isArgument =>
    exact .cons (by simp [isWord]) (optional (fun _ => reference) isArgument)
  | read isWord isFormat isMany =>
    exact .cons (by simp [isWord]) (.append (format isFormat)
      (many (fun _ => listed fun _ => reference) isMany))

end OneLine

end LineBasic.Grammar
