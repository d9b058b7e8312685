import LineBasic.Proofs.Parse.Modes
import LineBasic.Proofs.Parse.Statements

/-!
The parser accepts every program of the grammar.
-/

namespace LineBasic.Parse

open List

variable {α β : Type}

/-- The constructs that are open and the numbers of the lines so far. -/
structure Kept where
  opened : List Grammar.Construct
  seen : List Nat

/-- What decides whether a parser goes on, with the tokens that are left. -/
structure View where
  tokens : List Token
  kept : Kept

/-- The view of a place and of a state in which faults are collected. -/
structure View.Of (view : View) (s : TokenStream) (env : Env) : Prop where
  tokens : s.rest = view.tokens
  collect : env.collect = true
  opened : env.constructs = view.kept.opened
  seen : env.numbers = view.kept.seen

/-- A parser goes from one view on to another, with a result as it should be. -/
def Reaches (parser : Parse α) (view : View) (good : α → Prop) (after : View) : Prop :=
  ∀ s env, view.Of s env → ∃ a s' env', parser.Yields s env a s' env' ∧ good a ∧ after.Of s' env'

abbrev Accepts (parser : Parse α) (view after : View) : Prop :=
  Reaches parser view (fun _ => True) after

namespace Reaches

variable {view middle after : View} {good : α → Prop} {good' : β → Prop} {parser : Parse α}
  {tokens rest : List Token} {token : Token} {kind : TokenKind} {kept : Kept}

theorem bind {next : α → Parse β} (first : Reaches parser view good middle)
    (second : ∀ a, good a → Reaches (next a) middle good' after) :
    Reaches (parser >>= next) view good' after := by
  intro s env h
  obtain ⟨a, s₁, env₁, h₁, isGood, h⟩ := first s env h
  obtain ⟨b, s', env', h₂, isGood', h⟩ := second a isGood s₁ env₁ h
  exact ⟨b, s', env', yields_bind.mpr ⟨a, s₁, env₁, h₁, h₂⟩, isGood', h⟩

theorem next {a : α} {next : α → Parse β} (first : Reaches parser view (· = a) middle)
    (second : Reaches (next a) middle good' after) : Reaches (parser >>= next) view good' after :=
  first.bind fun _ eq => eq ▸ second

theorem pure {a : α} (h : good a) : Reaches (pure a) view good view :=
  fun s env seen => ⟨a, s, env, rfl, h, seen⟩

theorem any (h : Reaches parser view good after) : Accepts parser view after := by
  intro s env seen
  obtain ⟨a, s', env', h, _, seen⟩ := h s env seen
  exact ⟨a, s', env', h, trivial, seen⟩

theorem lift {check : Check α} (keeps : Check.Keeps check) : Accepts (liftM check) view view := by
  intro s env h
  obtain ⟨a, env', yields⟩ := keeps.succeeds env h.collect
  have same := keeps.same yields
  exact ⟨a, s, env', yields_lift.mpr ⟨yields, rfl⟩, trivial, h.tokens, same.collect.trans h.collect,
    same.constructs.trans h.opened, same.numbers.trans h.seen⟩

theorem lift_bind {check : Check α} {next : α → Parse β} (keeps : Check.Keeps check)
    (second : ∀ a, Reaches (next a) view good' after) : Reaches (liftM check >>= next) view good' after :=
  (lift keeps).bind fun a _ => second a

theorem get : Reaches get view (fun s => s.rest = view.tokens) view :=
  fun s env h => ⟨s, s, env, rfl, h.tokens, h⟩

theorem getThe : Reaches (getThe Env) view
    (fun env => env.constructs = view.kept.opened ∧ env.numbers = view.kept.seen) view :=
  fun s env h => ⟨env, s, env, rfl, ⟨h.opened, h.seen⟩, h⟩

theorem modifyThe {f : Env → Env} (h : ∀ s env, view.Of s env → after.Of s (f env)) :
    Accepts (modifyThe Env f) view after :=
  fun s env seen => ⟨(), s, f env, yields_modifyThe.mpr ⟨rfl, rfl⟩, trivial, h s env seen⟩

theorem advance : Reaches advance ⟨token :: rest, kept⟩ (· = token) ⟨rest, kept⟩ := by
  intro s env h
  exact ⟨token, ⟨token :: s.past, rest⟩, env, yields_advance.mpr ⟨h.tokens, rfl, rfl⟩, rfl, rfl,
    h.collect, h.opened, h.seen⟩

theorem expect (isKind : token.kind = kind) :
    Reaches (expect kind) ⟨token :: rest, kept⟩ (· = token) ⟨rest, kept⟩ := by
  intro s env h
  exact ⟨token, ⟨token :: s.past, rest⟩, env, yields_expect.mpr ⟨h.tokens, rfl, isKind, rfl⟩, rfl,
    rfl, h.collect, h.opened, h.seen⟩

theorem accept?_some (isKind : token.kind = kind) :
    Reaches (accept? kind) ⟨token :: rest, kept⟩ (· = some token) ⟨rest, kept⟩ := by
  intro s env h
  exact ⟨some token, ⟨token :: s.past, rest⟩, env,
    yields_accept?.mpr ⟨rfl, .inl ⟨token, rfl, h.tokens, rfl, isKind⟩⟩, rfl, rfl, h.collect,
    h.opened, h.seen⟩

theorem accept?_none (other : ∀ token ∈ tokens.head?, token.kind ≠ kind) :
    Reaches (accept? kind) ⟨tokens, kept⟩ (· = none) ⟨tokens, kept⟩ := by
  intro s env h
  refine ⟨none, s, env, yields_accept?.mpr ⟨rfl, .inr ⟨rfl, rfl, ?_⟩⟩, rfl, h⟩
  rw [h.tokens]
  exact other

theorem accept_true (isKind : token.kind = kind) :
    Reaches (accept kind) ⟨token :: rest, kept⟩ (· = true) ⟨rest, kept⟩ :=
  (accept?_some isKind).bind fun found eq => .pure (by rw [eq]; rfl)

theorem accept_false (other : ∀ token ∈ tokens.head?, token.kind ≠ kind) :
    Reaches (accept kind) ⟨tokens, kept⟩ (· = false) ⟨tokens, kept⟩ :=
  (accept?_none other).bind fun found eq => .pure (by rw [eq]; rfl)

theorem peekKind? : Reaches peekKind? ⟨tokens, kept⟩ (· = tokens.head?.map Token.kind)
    ⟨tokens, kept⟩ :=
  get.bind fun s eq => .pure (by rw [TokenStream.peekKind?, TokenStream.peek?, eq])

/-- Items are read as long as they follow one another. `fits` is what may follow an item. -/
theorem many {item : Parse (Option α)} {phrase fits : List Token → Prop}
    (more : ∀ {part rest}, phrase part → fits rest →
      Reaches item ⟨part ++ rest, kept⟩ (·.isSome) ⟨rest, kept⟩)
    (next : ∀ {part rest}, phrase part → fits (part ++ rest) ∧ 0 < part.length)
    (stop : Reaches item ⟨rest, kept⟩ (· = none) ⟨rest, kept⟩) (ends : fits rest)
    (h : Grammar.Many phrase tokens) :
    Accepts (many item) ⟨tokens ++ rest, kept⟩ ⟨rest, kept⟩ := by
  refine get.bind fun s read => ?_
  have enough : tokens.length ≤ s.rest.length := by simp [read]
  generalize s.rest.length = bound at enough
  clear read
  induction h generalizing bound with
  | nil =>
    cases bound with
    | zero => exact .pure trivial
    | succ bound =>
      refine stop.bind fun found eq => ?_
      rw [eq]
      exact .pure trivial
  | @cons part parts isPart isMany ih =>
    have positive := (@next part [] isPart).2
    rw [length_append] at enough
    cases bound with
    | zero => omega
    | succ bound =>
      have following : fits (parts ++ rest) := by
        cases isMany with
        | nil => exact ends
        | cons isNext _ =>
          rw [append_assoc]
          exact (next isNext).1
      rw [append_assoc]
      refine (more isPart following).bind fun found isSome => ?_
      obtain ⟨a, rfl⟩ := Option.isSome_iff_exists.mp isSome
      exact (ih bound (by omega)).bind fun _ _ => .pure trivial

end Reaches

def Unindexed (tokens : List Token) : Prop :=
  ∀ token ∈ tokens.head?, token.kind ≠ .separator .leftBracket

/-- No more of an expression follows. -/
structure Ends (tokens : List Token) : Prop where
  unindexed : Unindexed tokens
  operator : ∀ token ∈ tokens.head?, ∀ operator, token.kind = .operator operator →
    operator.isArithmetic = false

theorem Unindexed.cons {token : Token} {rest : List Token}
    (other : token.kind ≠ .separator .leftBracket) : Unindexed (token :: rest) := by
  rintro _ ⟨⟩
  exact other

theorem Ends.cons {token : Token} {rest : List Token} (other : token.kind ≠ .separator .leftBracket)
    (operator : ∀ operator, token.kind = .operator operator → operator.isArithmetic = false) :
    Ends (token :: rest) := by
  refine ⟨.cons other, ?_⟩
  rintro _ ⟨⟩
  exact operator

/-- A parser accepts a phrase before whatever can follow an expression. -/
def Covers (parser : Parse α) (phrase : List Token → Prop) : Prop :=
  ∀ {part rest kept}, phrase part → Ends rest → Accepts parser ⟨part ++ rest, kept⟩ ⟨rest, kept⟩

section Expressions

variable {inner : List Token → Prop} {part rest : List Token} {kept : Kept} {expression : Parse Node}

theorem index_some (covers : Covers expression inner) (h : Grammar.Index inner part) :
    Reaches (index expression) ⟨part ++ rest, kept⟩ (·.isSome) ⟨rest, kept⟩ := by
  cases h with
  | @mk left right inside isLeft isInner isRight =>
    have ends : Ends (right :: rest) := .cons (by simp [isRight]) (by simp [isRight])
    simp only [cons_append, append_assoc, nil_append]
    refine (Reaches.accept?_some isLeft).bind fun found eq => ?_
    rw [eq]
    refine (covers isInner ends).bind fun _ _ => (Reaches.expect isRight).next ?_
    exact .lift_bind (Check.keeps_checkIndex _ _) fun _ => .pure rfl

theorem index_none (h : Unindexed rest) :
    Reaches (index expression) ⟨rest, kept⟩ (· = none) ⟨rest, kept⟩ := by
  refine (Reaches.accept?_none h).bind fun found eq => ?_
  rw [eq]
  exact .pure rfl

section

variable (covers : Covers expression inner)

include covers

theorem indices_accepts (h : Grammar.Many (Grammar.Index inner) part) (ends : Unindexed rest) :
    Accepts (indices expression) ⟨part ++ rest, kept⟩ ⟨rest, kept⟩ := by
  refine Reaches.many (fun isIndex (_ : True) => index_some covers isIndex)
    (fun isIndex => ⟨trivial, ?_⟩) (index_none ends) trivial h
  cases isIndex
  simp

theorem variableRead_accepts (name : Token)
    (h : Grammar.Many (Grammar.Index inner) part) (ends : Unindexed rest) :
    Accepts (variableRead expression name) ⟨part ++ rest, kept⟩ ⟨rest, kept⟩ :=
  (indices_accepts covers h ends).bind fun _ _ => .lift (Check.keeps_readVariable _ _)

theorem parenthesized_accepts {right : Token}
    (isInner : inner part) (isRight : right.kind = .separator .rightParen) :
    Accepts (parenthesized expression) ⟨part ++ right :: rest, kept⟩ ⟨rest, kept⟩ := by
  have ends : Ends (right :: rest) := .cons (by simp [isRight]) (by simp [isRight])
  exact (covers isInner ends).bind fun _ _ => (Reaches.expect isRight).next <| .pure trivial

theorem operand_accepts (h : Grammar.Operand inner part) (ends : Unindexed rest) :
    Accepts (operand expression) ⟨part ++ rest, kept⟩ ⟨rest, kept⟩ := by
  cases h with
  | literal isLiteral =>
    refine Reaches.advance.next ?_
    rw [isLiteral]
    exact .lift (Check.keeps_literal _ _ _)
  | reference isReference =>
    cases isReference with
    | mk isName indices =>
      refine Reaches.advance.next ?_
      rw [isName]
      exact variableRead_accepts covers _ indices ends
  | parenthesized isParenthesized =>
    cases isParenthesized with
    | mk isLeft isInner isRight =>
      simp only [cons_append, append_assoc, nil_append]
      refine Reaches.advance.next ?_
      rw [isLeft]
      exact parenthesized_accepts covers isInner isRight
  | @negativeLiteral minus token kind isMinus isLiteral notText =>
    refine Reaches.advance.next ?_
    rw [isMinus]
    refine Reaches.advance.next ?_
    rw [isLiteral]
    cases kind with
    | integer => exact .lift (Check.keeps_literal _ _ _)
    | decimal => exact .lift (Check.keeps_literal _ _ _)
    | text => exact absurd rfl notText
  | negatedReference isMinus isReference =>
    cases isReference with
    | mk isName indices =>
      refine Reaches.advance.next ?_
      rw [isMinus]
      refine Reaches.advance.next ?_
      rw [isName]
      exact (variableRead_accepts covers _ indices ends).bind fun _ _ =>
        .lift (Check.keeps_negated _ _)
  | negatedParenthesized isMinus isParenthesized =>
    cases isParenthesized with
    | mk isLeft isInner isRight =>
      simp only [cons_append, append_assoc, nil_append]
      refine Reaches.advance.next ?_
      rw [isMinus]
      refine Reaches.advance.next ?_
      rw [isLeft]
      exact (parenthesized_accepts covers isInner isRight).bind fun _ _ =>
        .lift (Check.keeps_negated _ _)

theorem tail_some (h : Grammar.Tail inner part) (ends : Unindexed rest) :
    Reaches (tail expression) ⟨part ++ rest, kept⟩ (·.isSome) ⟨rest, kept⟩ := by
  cases h with
  | mk isOperator arithmetic isOperand =>
    refine Reaches.peekKind?.bind fun kind eq => ?_
    rw [eq, cons_append, head?_cons, Option.map_some, isOperator]
    simp only [arithmetic, if_true]
    exact Reaches.advance.next <| (operand_accepts covers isOperand ends).bind fun _ _ =>
      .pure rfl

end

theorem tail_none (ends : Ends rest) :
    Reaches (tail expression) ⟨rest, kept⟩ (· = none) ⟨rest, kept⟩ := by
  refine Reaches.peekKind?.bind fun kind eq => ?_
  rw [eq]
  split
  next operator first =>
    obtain ⟨token, first, isOperator⟩ := Option.map_eq_some_iff.mp first
    simp only [ends.operator token first operator isOperator, Bool.false_eq_true, if_false]
    exact .pure rfl
  next => exact .pure rfl

theorem expressionOver_accepts {tails : List Token} (covers : Covers expression inner)
    (isOperand : Grammar.Operand inner part) (isMany : Grammar.Many (Grammar.Tail inner) tails)
    (ends : Ends rest) :
    Accepts (expressionOver expression) ⟨part ++ tails ++ rest, kept⟩ ⟨rest, kept⟩ := by
  have starts {tail more : List Token} (isTail : Grammar.Tail inner tail) :
      Unindexed (tail ++ more) ∧ 0 < tail.length := by
    cases isTail with
    | mk isOperator _ _ => exact ⟨.cons (by simp [isOperator]), by simp⟩
  have following : Unindexed (tails ++ rest) := by
    cases isMany with
    | nil => exact ends.unindexed
    | cons isTail _ =>
      rw [append_assoc]
      exact (starts isTail).1
  rw [append_assoc]
  refine (operand_accepts covers isOperand following).bind fun _ _ => ?_
  refine Reaches.bind (Reaches.many (fun isTail fits => tail_some covers isTail fits) starts
    (tail_none ends) ends.unindexed isMany) fun _ _ => ?_
  exact .lift (Check.keeps_join _ _)

end Expressions

theorem covers_expressionWithin (depth : Nat) : Covers (expressionWithin depth) fun part =>
    Grammar.Expression part ∧ part.length ≤ depth := by
  induction depth with
  | zero =>
    rintro part rest kept ⟨isExpression, length⟩ _
    cases isExpression with
    | mk isOperand _ =>
      have positive := isOperand.length_pos
      rw [length_append] at length
      omega
  | succ depth ih =>
    rintro part rest kept ⟨isExpression, length⟩ ends
    cases isExpression with
    | mk isOperand isMany =>
      have positive := isOperand.length_pos
      rw [length_append] at length
      refine expressionOver_accepts ih (isOperand.imp fun part shorter isPart => ⟨isPart, ?_⟩)
        (isMany.imp fun tail shorter isTail => isTail.imp fun part shorter' isPart =>
          ⟨isPart, ?_⟩) ends
      · omega
      · omega

theorem covers_expression : Covers expression Grammar.Expression := by
  intro part rest kept isExpression ends
  refine Reaches.get.bind fun s eq => covers_expressionWithin _ ⟨isExpression, ?_⟩ ends
  simp [eq]

section Statements

variable {part rest tokens : List Token} {opened after : List Grammar.Construct} {seen : List Nat}
  {kept : Kept} {name token ending : Token}

theorem Ends.keyword {keyword : Keyword} (h : token.kind = .keyword keyword) :
    Ends (token :: rest) :=
  .cons (by simp [h]) (by simp [h])

theorem Ends.newline (h : token.kind = .separator .newline) : Ends (token :: rest) :=
  .cons (by simp [h]) (by simp [h])

theorem Ends.comma (h : token.kind = .separator .comma) : Ends (token :: rest) :=
  .cons (by simp [h]) (by simp [h])

theorem Ends.nonarithmetic {operator : Operator} (h : token.kind = .operator operator)
    (other : operator.isArithmetic = false) : Ends (token :: rest) := by
  refine .cons (by simp [h]) fun operator' h' => ?_
  cases h.symm.trans h'
  exact other

theorem letStatement_accepts {equal : Token} {value : List Token}
    (indices : Grammar.Many (Grammar.Index Grammar.Expression) part)
    (isEqual : equal.kind = .operator .equal) (isValue : Grammar.Expression value)
    (ends : Ends rest) :
    Accepts (letStatement name) ⟨part ++ equal :: (value ++ rest), kept⟩ ⟨rest, kept⟩ := by
  have following : Unindexed (equal :: (value ++ rest)) := .cons (by simp [isEqual])
  refine (indices_accepts covers_expression indices following).bind fun _ _ => ?_
  refine (Reaches.expect isEqual).next <| (covers_expression isValue ends).bind fun _ _ => ?_
  exact .lift_bind (Check.keeps_writtenVariable _ _) fun _ =>
    .lift_bind (Check.keeps_assignment _ _ _) fun _ => .lift (Check.keeps_attach _)

theorem lineNumber_accepts {number : Nat} (h : Grammar.IsNumber token number) :
    Reaches (lineNumber token) ⟨tokens, kept⟩ (· = number) ⟨tokens, kept⟩ := by
  unfold lineNumber
  rw [h.2.1, Option.filter_some_pos (by simpa using h.2.2)]
  exact .pure rfl

theorem gotoStatement_accepts {number : Nat} (h : Grammar.IsNumber token number) :
    Accepts gotoStatement ⟨token :: rest, kept⟩ ⟨rest, kept⟩ := by
  refine (Reaches.expect h.1).bind fun other eq => ?_
  rw [eq]
  refine (lineNumber_accepts h).bind fun _ _ => ?_
  refine .lift_bind (Check.keeps_node _ _) fun _ => ?_
  refine .lift_bind (Check.keeps_attach _) fun _ => Reaches.modifyThe fun s env h => ?_
  exact ⟨h.tokens, h.collect, h.opened, h.seen⟩

theorem markLine_accepts : Accepts (modifyThe Env Env.markLine) ⟨tokens, kept⟩ ⟨tokens, kept⟩ :=
  Reaches.modifyThe fun _ env h => ⟨h.tokens, h.collect, h.opened,
    (Env.Same.markLine env).numbers.trans h.seen⟩

theorem openBlock_accepts (opening : Opening) :
    Accepts (liftM (Check.openBlock opening)) ⟨tokens, opened, seen⟩
      ⟨tokens, opening.construct :: opened, seen⟩ := by
  intro s env h
  refine ⟨(), s, _, yields_lift.mpr ⟨Check.yields_bind.mpr ⟨_, _, rfl, rfl⟩, rfl⟩, trivial,
    h.tokens, h.collect, ?_, h.seen⟩
  exact congrArg (opening.construct :: ·) h.opened

theorem isArithmetic_of_isComparator {operator : Operator} (h : operator.isComparator) :
    operator.isArithmetic = false := by
  cases operator <;> first | rfl | cases h

theorem closed_accepts {outer : List Grammar.Construct} {blocks : List OpenBlock}
    (h : blocks.map (fun opened => opened.opening.construct) = outer) :
    Accepts (modifyThe Env fun env => { env with blocks }) ⟨tokens, opened, seen⟩
      ⟨tokens, outer, seen⟩ :=
  Reaches.modifyThe fun _ _ view => ⟨view.tokens, view.collect, h, view.seen⟩

theorem elseStatement_accepts {outer : List Grammar.Construct} :
    Accepts (elseStatement token) ⟨tokens, .branch :: outer, seen⟩
      ⟨tokens, .otherwise :: outer, seen⟩ := by
  refine Reaches.getThe.bind fun env known => ?_
  obtain ⟨⟨opening, consequence⟩, blocks, isBlocks, isBranch, isOuter⟩ :=
    map_eq_cons_iff.mp known.1
  rw [isBlocks]
  cases opening with
  | branch id line condition =>
    exact (closed_accepts isOuter).bind fun _ _ => openBlock_accepts _
  | loop | otherwise => cases isBranch

theorem endStatement_accepts {innermost : Grammar.Construct} {outer : List Grammar.Construct} :
    Accepts (endStatement token) ⟨tokens, innermost :: outer, seen⟩ ⟨tokens, outer, seen⟩ := by
  refine Reaches.getThe.bind fun env known => ?_
  obtain ⟨⟨opening, block⟩, blocks, isBlocks, _, isOuter⟩ := map_eq_cons_iff.mp known.1
  rw [isBlocks]
  exact (closed_accepts isOuter).bind fun _ _ => .lift (Check.keeps_append _)

theorem format_accepts (statement : Keyword) (h : Grammar.Format part) (ends : Ends rest) :
    Accepts (format statement) ⟨part ++ rest, kept⟩ ⟨rest, kept⟩ := by
  refine Reaches.peekKind?.bind fun kind eq => ?_
  cases h with
  | text isText =>
    simp only [eq, cons_append, head?_cons, Option.map_some, isText, if_true]
    exact Reaches.advance.next <| .lift (Check.keeps_literal _ _ _)
  | other isExpression notText =>
    have other : kind ≠ some (.literal .text) := by
      rw [eq, head?_append_of_ne_nil _ isExpression.ne_nil]
      intro first
      obtain ⟨token, first, isText⟩ := Option.map_eq_some_iff.mp first
      exact notText token first isText
    simp only [other, if_false]
    refine Reaches.get.bind fun _ _ => .lift_bind (Check.keeps_diagnose _ _) fun _ => ?_
    exact .lift_bind (Check.keeps_report _) fun _ => covers_expression isExpression ends

theorem readTarget_some {comma : Token} (isComma : comma.kind = .separator .comma)
    (h : Grammar.Variable part) (ends : Ends rest) :
    Reaches readTarget ⟨comma :: (part ++ rest), kept⟩ (·.isSome) ⟨rest, kept⟩ := by
  cases h with
  | mk isName indices =>
    refine (Reaches.accept_true isComma).next ?_
    refine (Reaches.expect isName).next ?_
    refine (indices_accepts covers_expression indices ends.unindexed).bind fun _ _ => ?_
    refine .lift_bind (Check.keeps_writtenVariable _ _) fun target => ?_
    split
    next =>
      refine Reaches.getThe.bind fun env _ => ?_
      split
      next => exact .lift_bind (Check.keeps_setType _ _) fun _ => .pure rfl
      next => exact .pure rfl
    next => exact .pure rfl

theorem enterBrace_accepts (place : Place) :
    Reaches (enterBrace name place) ⟨tokens, kept⟩ (·.depth = place.depth + 1) ⟨tokens, kept⟩ := by
  unfold enterBrace
  dsimp only
  split
  next => exact .lift_bind (Check.keeps_reportAt _ _) fun _ => .pure rfl
  next => exact .pure rfl

theorem exists_bound {bound : Nat} (h : (token :: rest).length ≤ bound) :
    ∃ bound', bound = bound' + 1 ∧ rest.length ≤ bound' := by
  cases bound with
  | zero => cases h
  | succ bound => exact ⟨bound, rfl, Nat.le_of_succ_le_succ h⟩

theorem elements_accepts {number depth bound : Nat} {place : Place}
    (h : Grammar.Values depth part) (isDepth : place.depth = depth) (enough : part.length ≤ bound) :
    Accepts (elements number name bound place) ⟨part ++ rest, kept⟩ ⟨rest, kept⟩ := by
  induction h generalizing bound place
  case done =>
    cases bound <;>
    · unfold elements
      rw [if_pos isDepth]
      exact .pure trivial
  all_goals
    obtain ⟨bound, rfl, shorter⟩ := exists_bound enough
    unfold elements
    rw [if_neg (by omega)]
    refine Reaches.advance.next ?_
  case enter isMark _ ih =>
    rw [isMark]
    exact (enterBrace_accepts place).bind fun inner isInner => ih (by omega) (by omega)
  case leave isMark _ ih =>
    rw [isMark]
    exact ih (by simp [Place.leave, isDepth]) (by omega)
  case comma isMark _ ih =>
    rw [isMark]
    exact ih isDepth (by omega)
  case literal isMark _ ih =>
    rw [isMark]
    exact .lift_bind (Check.keeps_element _ _ _ _ _ _) fun _ => ih isDepth (by omega)
  case negative kind _ isMinus isNumber notText _ ih =>
    rw [isMinus]
    refine Reaches.advance.next ?_
    rw [isNumber]
    cases kind with
    | text => exact absurd rfl notText
    | integer | decimal =>
      exact .lift_bind (Check.keeps_element _ _ _ _ _ _) fun _ =>
        ih isDepth (Nat.le_of_succ_le shorter)

theorem initializer_accepts {number : Nat} {brace : Token}
    (isBrace : brace.kind = .separator .leftBrace) (isValues : Grammar.Values 1 part) :
    Accepts (initializer number name) ⟨brace :: (part ++ rest), kept⟩ ⟨rest, kept⟩ := by
  refine Reaches.getThe.bind fun env _ => (Reaches.expect isBrace).next ?_
  refine (enterBrace_accepts _).bind fun place isDepth => Reaches.get.bind fun s eq => ?_
  exact elements_accepts isValues isDepth (by simp [eq])

theorem dimension_some (h : Grammar.Dimension part) :
    Reaches (dimension name) ⟨part ++ rest, kept⟩ (·.isSome) ⟨rest, kept⟩ := by
  cases h with
  | mk isLeft isSize isRight =>
    refine (Reaches.accept_true isLeft).next ?_
    refine (Reaches.expect isSize).bind fun size _ => (Reaches.expect isRight).next ?_
    split
    next => exact .pure rfl
    next => exact .lift_bind (Check.keeps_reportAt _ _) fun _ => .pure rfl

theorem dimension_none (ends : Unindexed rest) :
    Reaches (dimension name) ⟨rest, kept⟩ (· = none) ⟨rest, kept⟩ := by
  refine (Reaches.accept_false ends).next ?_
  exact .pure rfl

theorem lineLabel_accepts {number : Nat} (h : Grammar.IsNumber token number)
    (fresh : number ∉ seen) :
    Accepts lineLabel ⟨token :: tokens, opened, seen⟩ ⟨tokens, opened, number :: seen⟩ := by
  refine Reaches.advance.bind fun label eq => ?_
  rw [if_neg (by simp [eq, h.1]), eq]
  refine (lineNumber_accepts h).bind fun value eq => Reaches.getThe.bind fun env known => ?_
  have unseen : ¬ (env.lines.any fun line => line.1 == value) = true := by
    simp only [any_eq_true, beq_iff_eq, not_exists, not_and]
    intro line mem same
    have inside : line.1 ∈ env.numbers := mem_map_of_mem mem
    rw [known.2, same, eq] at inside
    exact fresh inside
  rw [if_neg unseen]
  refine Reaches.modifyThe fun s env h => ⟨h.tokens, h.collect, h.opened, ?_⟩
  rw [eq]
  exact congrArg (number :: ·) h.seen

section Ending

variable (isEnd : ending.kind = .separator .newline)

include isEnd

theorem forStatement_accepts {equal upTo : Token} {start limit step : List Token}
    (isName : name.kind = .identifier) (isEqual : equal.kind = .operator .equal)
    (isStart : Grammar.Expression start) (isTo : upTo.kind = .keyword .TO)
    (isLimit : Grammar.Expression limit) (isStep : Grammar.Optional Grammar.Step step) :
    Accepts forStatement
      ⟨name :: equal :: (start ++ upTo :: (limit ++ (step ++ ending :: rest))), opened, seen⟩
      ⟨ending :: rest, .loop :: opened, seen⟩ := by
  refine (Reaches.expect isName).next <| (Reaches.expect isEqual).next ?_
  refine (covers_expression isStart (.keyword isTo)).bind fun first _ => ?_
  refine .lift_bind (Check.keeps_writtenVariable _ _) fun target => ?_
  refine .lift_bind (Check.keeps_assignment _ _ _) fun first => ?_
  refine (Reaches.expect isTo).next ?_
  have finish (limit step : Node) (line : Nat) : Accepts (do
      let id ← Check.fresh
      modifyThe Env Env.markLine
      Check.openBlock (.loop id line first limit step))
      ⟨ending :: rest, opened, seen⟩ ⟨ending :: rest, .loop :: opened, seen⟩ :=
    .lift_bind Check.keeps_fresh fun _ => markLine_accepts.bind fun _ _ =>
      openBlock_accepts _
  cases isStep with
  | none =>
    refine (covers_expression isLimit (.newline isEnd)).bind fun limit _ => ?_
    refine (Reaches.accept_false (by simp [isEnd])).next ?_
    refine .lift_bind (Check.keeps_literalNode _ _) fun step => ?_
    refine Reaches.getThe.bind fun env _ => ?_
    split
    next =>
      split
      next => exact .lift_bind (Check.keeps_record _) fun _ => finish limit step env.line
      next => exact finish limit step env.line
    next => exact finish limit step env.line
  | some isStep =>
    cases isStep with
    | mk isWord isExpression =>
      refine (covers_expression isLimit (.keyword isWord)).bind fun limit _ => ?_
      refine (Reaches.accept_true isWord).next ?_
      refine (covers_expression isExpression (.newline isEnd)).bind fun step _ => ?_
      refine Reaches.getThe.bind fun env _ => ?_
      split
      next =>
        split
        next =>
          exact .lift_bind (Check.keeps_record _) fun _ => finish limit step env.line
        next => exact finish limit step env.line
      next => exact finish limit step env.line

theorem accept_optional {keyword : Keyword} (h : Grammar.Optional (Grammar.Word keyword) part) :
    Accepts (accept (.keyword keyword)) ⟨part ++ ending :: rest, kept⟩ ⟨ending :: rest, kept⟩ := by
  cases h with
  | none => exact (Reaches.accept_false (by simp [isEnd])).any
  | some isWord =>
    cases isWord with
    | mk isWord => exact (Reaches.accept_true isWord).any

theorem ifStatement_accepts {operator : Operator} {lhs rhs : List Token}
    (isLeft : Grammar.Expression lhs) (isOperator : token.kind = .operator operator)
    (comparator : operator.isComparator) (isRight : Grammar.Expression rhs)
    (isThen : Grammar.Optional (Grammar.Word .THEN) part) :
    Accepts ifStatement ⟨lhs ++ token :: (rhs ++ (part ++ ending :: rest)), opened, seen⟩
      ⟨ending :: rest, .branch :: opened, seen⟩ := by
  have ends : Ends (part ++ ending :: rest) := by
    cases isThen with
    | none => exact .newline isEnd
    | some isWord =>
      cases isWord with
      | mk isWord => exact .keyword isWord
  refine (covers_expression isLeft
    (.nonarithmetic isOperator (isArithmetic_of_isComparator comparator))).bind fun _ _ => ?_
  refine Reaches.advance.next ?_
  rw [isOperator]
  simp only [comparator, Bool.not_true, Bool.false_eq_true, if_false]
  refine (covers_expression isRight ends).bind fun _ _ => ?_
  refine .lift_bind (Check.keeps_binary _ _ _ _) fun _ => ?_
  refine (accept_optional isEnd isThen).bind fun _ _ => ?_
  refine .lift_bind Check.keeps_fresh fun _ => markLine_accepts.bind fun _ _ => ?_
  exact Reaches.getThe.bind fun _ _ => openBlock_accepts _

theorem listed_accepts {item : Parse (Option α)} {phrase : List Token → Prop}
    (more : ∀ {comma : Token} {part rest : List Token}, comma.kind = .separator .comma →
      phrase part → Ends rest →
      Reaches item ⟨comma :: (part ++ rest), kept⟩ (·.isSome) ⟨rest, kept⟩)
    (stop : Reaches item ⟨ending :: rest, kept⟩ (· = none) ⟨ending :: rest, kept⟩)
    (h : Grammar.Many (Grammar.Listed phrase) part) :
    Accepts (many item) ⟨part ++ ending :: rest, kept⟩ ⟨ending :: rest, kept⟩ := by
  refine Reaches.many (fun {_ following} isListed (ends : Ends following) => ?_)
    (fun isListed => ?_) stop (.newline isEnd) h
  · cases isListed with
    | mk isComma isPhrase => exact more isComma isPhrase ends
  · cases isListed with
    | mk isComma _ => exact ⟨.comma isComma, by simp⟩

theorem ends_listed {phrase : List Token → Prop} (h : Grammar.Many (Grammar.Listed phrase) part)
    : Ends (part ++ ending :: rest) := by
  cases h with
  | nil => exact .newline isEnd
  | cons first _ =>
    cases first with
    | mk isComma _ => exact .comma isComma

theorem printStatement_accepts {arguments : List Token} (isFormat : Grammar.Format part)
    (isMany : Grammar.Many (Grammar.Listed Grammar.Expression) arguments) :
    Accepts printStatement ⟨part ++ (arguments ++ ending :: rest), kept⟩
      ⟨ending :: rest, kept⟩ := by
  refine (format_accepts _ isFormat (ends_listed isEnd isMany)).bind fun _ _ => ?_
  refine .lift_bind Check.keeps_fresh fun _ => ?_
  refine Reaches.bind (listed_accepts isEnd (fun isComma isArgument ends => ?_) ?_ isMany)
    fun _ _ => Reaches.getThe.bind fun _ _ => .lift (Check.keeps_attach _)
  · refine (Reaches.accept_true isComma).next ?_
    exact (covers_expression isArgument ends).bind fun _ _ => .pure rfl
  · refine (Reaches.accept_false (by simp [isEnd])).next ?_
    exact .pure rfl

theorem printlnStatement_accepts (h : Grammar.Optional Grammar.Variable part) :
    Accepts printlnStatement ⟨part ++ ending :: rest, kept⟩ ⟨ending :: rest, kept⟩ := by
  refine .lift_bind Check.keeps_fresh fun _ => Reaches.getThe.bind fun _ _ => ?_
  refine Reaches.get.bind fun s eq => ?_
  rw [TokenStream.peek?, eq]
  cases h with
  | none =>
    rw [if_pos (by simp [Token.isNewline, isEnd])]
    exact .lift_bind (Check.keeps_literalNode _ _) fun _ => .lift (Check.keeps_attach _)
  | some isVariable =>
    cases isVariable with
    | mk isName indices =>
      rw [if_neg (by simp [Token.isNewline, isName])]
      refine (Reaches.expect isName).next ?_
      refine (variableRead_accepts covers_expression _ indices
        (Ends.newline isEnd).unindexed).bind fun _ _ => Reaches.getThe.bind fun _ _ => ?_
      exact .lift_bind (Check.keeps_literalNode _ _) fun _ =>
        .lift (Check.keeps_attach _)

theorem readStatement_accepts {targets : List Token} (isFormat : Grammar.Format part)
    (isMany : Grammar.Many (Grammar.Listed Grammar.Variable) targets) :
    Accepts readStatement ⟨part ++ (targets ++ ending :: rest), kept⟩ ⟨ending :: rest, kept⟩ := by
  refine (format_accepts _ isFormat (ends_listed isEnd isMany)).bind fun _ _ => ?_
  refine .lift_bind Check.keeps_fresh fun _ => ?_
  refine Reaches.bind (listed_accepts isEnd readTarget_some ?_ isMany)
    fun _ _ => Reaches.getThe.bind fun _ _ => .lift (Check.keeps_attach _)
  refine (Reaches.accept_false (by simp [isEnd])).next ?_
  exact .pure rfl

theorem firstValues_accepts {number : Nat} (h : Grammar.Optional Grammar.Initializer part) :
    Accepts (firstValues number name) ⟨part ++ ending :: rest, kept⟩ ⟨ending :: rest, kept⟩ := by
  cases h with
  | none =>
    refine (Reaches.accept_false (by simp [isEnd])).bind fun found eq => ?_
    refine Reaches.peekKind?.bind fun kind eq' => ?_
    rw [if_neg (by simp [eq, eq', isEnd])]
    exact .pure trivial
  | some isInitializer =>
    cases isInitializer with
    | plain isBrace isValues =>
      refine (Reaches.accept_false (by simp [isBrace])).bind fun found eq => ?_
      refine Reaches.peekKind?.bind fun kind eq' => ?_
      rw [if_pos (by simp [eq', isBrace])]
      exact initializer_accepts isBrace isValues
    | assigned isEqual isBrace isValues =>
      refine (Reaches.accept_true isEqual).bind fun found eq => ?_
      refine Reaches.peekKind?.bind fun kind _ => ?_
      rw [if_pos (by simp [eq])]
      exact initializer_accepts isBrace isValues

theorem sizedArray_accepts (dims : List Nat) (h : Grammar.Optional Grammar.Initializer part) :
    Accepts (sizedArray name dims) ⟨part ++ ending :: rest, kept⟩ ⟨ending :: rest, kept⟩ := by
  refine .lift_bind (Check.keeps_declare _ _) fun number => ?_
  refine Reaches.getThe.bind fun env _ => ?_
  split
  next =>
    exact .lift_bind (Check.keeps_record _) fun _ => firstValues_accepts isEnd h
  next => exact firstValues_accepts isEnd h

theorem namedArray_accepts (dims : List Nat) (h : Grammar.Optional Grammar.Initializer part) :
    Accepts (namedArray name dims) ⟨part ++ ending :: rest, kept⟩ ⟨ending :: rest, kept⟩ := by
  unfold namedArray
  split
  next => exact sizedArray_accepts isEnd dims h
  next =>
    exact .lift_bind (Check.keeps_reportAt _ _) fun _ => sizedArray_accepts isEnd _ h

theorem declaration_accepts {dimensions : List Token} (isName : name.kind = .identifier)
    (isMany : Grammar.Many Grammar.Dimension dimensions)
    (h : Grammar.Optional Grammar.Initializer part) :
    Accepts declaration ⟨name :: (dimensions ++ (part ++ ending :: rest)), kept⟩
      ⟨ending :: rest, kept⟩ := by
  have following : Unindexed (part ++ ending :: rest) := by
    cases h with
    | none => exact .cons (by simp [isEnd])
    | some isInitializer =>
      cases isInitializer with
      | plain isBrace _ => exact .cons (by simp [isBrace])
      | assigned isEqual _ _ => exact .cons (by simp [isEqual])
  have dimensions_accepts (name : Token) : Accepts (many (dimension name))
      ⟨dimensions ++ (part ++ ending :: rest), kept⟩
      ⟨part ++ ending :: rest, kept⟩ := by
    refine Reaches.many (fun isDimension (_ : True) => dimension_some isDimension)
      (fun isDimension => ⟨trivial, ?_⟩) (dimension_none following) trivial isMany
    cases isDimension
    simp
  rw [declaration_eq]
  refine (Reaches.expect isName).bind fun name _ => (dimensions_accepts name).bind fun dims _ => ?_
  refine Reaches.getThe.bind fun env _ => ?_
  split
  next =>
    exact .lift_bind (Check.keeps_reportAt _ _) fun _ => namedArray_accepts isEnd dims h
  next => exact namedArray_accepts isEnd dims h

theorem statementBody_accepts (h : Grammar.Statement opened (token :: part) after) :
    Accepts (statementBody token) ⟨part ++ ending :: rest, opened, seen⟩
      ⟨ending :: rest, after, seen⟩ := by
  generalize eq : token :: part = tokens at h
  unfold statementBody
  cases h with
  | assign isWord isTarget isEqual isValue =>
    cases isTarget with
    | mk isName indices =>
      cases isWord with
      | none =>
        rw [nil_append, cons_append, List.cons.injEq] at eq
        obtain ⟨rfl, rfl⟩ := eq
        rw [isName, append_assoc]
        exact letStatement_accepts indices isEqual isValue (.newline isEnd)
      | some isWord =>
        cases isWord with
        | mk isWord =>
          simp only [cons_append, nil_append, List.cons.injEq] at eq
          obtain ⟨rfl, rfl⟩ := eq
          rw [isWord, cons_append, append_assoc]
          exact (Reaches.expect isName).bind fun _ _ =>
            letStatement_accepts indices isEqual isValue (.newline isEnd)
  | dim isWord isName isMany isOptional =>
    cases eq
    rw [isWord]
    simp only [cons_append, append_assoc]
    exact declaration_accepts isEnd isName isMany isOptional
  | goto isWord isNumber =>
    cases eq
    rw [isWord]
    exact gotoStatement_accepts isNumber
  | loop isWord isName isEqual isStart isTo isLimit isStep =>
    cases eq
    rw [isWord]
    simp only [cons_append, append_assoc]
    exact forStatement_accepts isEnd isName isEqual isStart isTo isLimit isStep
  | branch isWord isLeft isOperator comparator isRight isThen =>
    cases eq
    rw [isWord]
    simp only [cons_append, append_assoc]
    exact ifStatement_accepts isEnd isLeft isOperator comparator isRight isThen
  | otherwise isWord =>
    cases eq
    rw [isWord]
    exact elseStatement_accepts
  | close isWord =>
    cases eq
    rw [isWord]
    exact endStatement_accepts
  | print isWord isFormat isMany =>
    cases eq
    rw [isWord]
    simp only [append_assoc]
    exact printStatement_accepts isEnd isFormat isMany
  | println isWord isArgument =>
    cases eq
    rw [isWord]
    exact printlnStatement_accepts isEnd isArgument
  | read isWord isFormat isMany =>
    cases eq
    rw [isWord]
    simp only [append_assoc]
    exact readStatement_accepts isEnd isFormat isMany
  | remark isWord =>
    cases eq
    rw [isWord]
    exact .pure trivial

theorem statement_accepts {number : Nat} (isNumber : Grammar.IsNumber token number)
    (fresh : number ∉ seen) (isStatement : Grammar.Statement opened part after) :
    Accepts statement ⟨token :: (part ++ ending :: rest), opened, seen⟩
      ⟨rest, after, number :: seen⟩ := by
  refine (lineLabel_accepts isNumber fresh).bind fun _ _ => ?_
  cases part with
  | nil => exact absurd rfl isStatement.ne_nil
  | cons first part =>
    refine Reaches.advance.bind fun word eq => ?_
    rw [eq]
    refine (statementBody_accepts isEnd isStatement).bind fun _ _ => ?_
    refine Reaches.getThe.bind fun env _ => .lift_bind (Check.keeps_record _) fun _ => ?_
    refine (Reaches.accept_true isEnd).bind fun found eq => ?_
    rw [if_neg (by simp [eq])]
    exact .pure trivial

end Ending

theorem statements_accepts {bound : Nat} (h : Grammar.Lines seen opened tokens)
    (enough : tokens.length ≤ bound) :
    ∃ numbers, Accepts (statements bound) ⟨tokens, opened, seen⟩ ⟨[], [], numbers⟩ := by
  induction h generalizing bound with
  | @nil seen =>
    refine ⟨seen, ?_⟩
    cases bound with
    | zero => exact .pure trivial
    | succ bound =>
      refine Reaches.get.bind fun s eq => ?_
      rw [if_pos (by simp [TokenStream.atEnd, eq])]
      exact .pure trivial
  | cons isNumber fresh isStatement isEnd _ ih =>
    obtain ⟨bound, rfl, shorter⟩ := exists_bound enough
    rw [length_append, length_cons] at shorter
    obtain ⟨numbers, rest⟩ := @ih bound (by omega)
    refine ⟨numbers, Reaches.get.bind fun s eq => ?_⟩
    rw [if_neg (by simp [TokenStream.atEnd, eq])]
    exact (statement_accepts isEnd isNumber fresh isStatement).bind fun _ _ => rest

theorem checkJump_accepts (jump : Jump) : Accepts (checkJump jump) ⟨tokens, kept⟩
    ⟨tokens, kept⟩ := by
  refine Reaches.getThe.bind fun env _ => ?_
  split
  next =>
    split
    next => exact .pure trivial
    next =>
      split
      next => exact .lift (Check.keeps_record _)
      next => exact .lift (Check.keeps_report _)
  next => exact .lift (Check.keeps_report _)
  next => exact .lift (Check.keeps_report _)

theorem checkJumps_accepts (jumps : List Jump) : Accepts (jumps.forM checkJump)
    ⟨tokens, kept⟩ ⟨tokens, kept⟩ := by
  induction jumps with
  | nil => exact .pure trivial
  | cons jump jumps ih => exact (checkJump_accepts jump).bind fun _ _ => ih

theorem checkClosed_accepts : Accepts checkClosed ⟨tokens, [], seen⟩ ⟨tokens, [], seen⟩ := by
  refine Reaches.getThe.bind fun env known => ?_
  rw [map_eq_nil_iff.mp known.1]
  exact .pure trivial

/-- Every program of the grammar is accepted. -/
theorem program_accepts (h : Grammar.IsProgram tokens) :
    ∃ after, Accepts program ⟨tokens, [], []⟩ after := by
  obtain ⟨numbers, accepts⟩ := statements_accepts h (Nat.le_refl _)
  refine ⟨⟨[], [], numbers⟩, Reaches.get.bind fun s eq => ?_⟩
  rw [eq]
  refine accepts.bind fun _ _ => checkClosed_accepts.bind fun _ _ => ?_
  exact Reaches.getThe.bind fun env _ => checkJumps_accepts _

end Statements

end LineBasic.Parse

namespace LineBasic

/-- The grammar tells exactly when a parse that collects faults has none of the grammar to report,
whatever semantic faults there are. -/
theorem grammar_faults_iff (tokens : List Token) :
    (∀ ds, (parse tokens true).result = .error ds → ∀ d ∈ ds.toList, d.stage ≠ .grammar) ↔
      Grammar.IsProgram tokens := by
  have reported : (∀ ds, (parse tokens true).result = .error ds → ∀ d ∈ ds.toList,
      d.stage ≠ .grammar) ↔ ∀ d ∈ Parse.found (Parse.outcome tokens true), d.stage ≠ .grammar := by
    rw [result_parse_eq]
    cases Parse.found (Parse.outcome tokens true) with
    | nil => simp
    | cons d others => simp [Diagnostics.toList]
  rw [reported, ← Parse.outcome_ok_iff]
  constructor
  · rintro ⟨s, env, outcome⟩
    exact (Parse.Yields.program_runs outcome).1
  · intro isProgram
    obtain ⟨after, accepts⟩ := Parse.program_accepts isProgram
    obtain ⟨_, s, env, outcome, _⟩ := accepts (.ofTokens tokens) { collect := true } ⟨rfl, rfl, rfl, rfl⟩
    exact ⟨s, env, outcome⟩

end LineBasic
