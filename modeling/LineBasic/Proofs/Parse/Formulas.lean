import LineBasic.Proofs.Parse.Acceptance

/-!
Integer expressions that are printed with no more parentheses than they need, and read back.
-/

namespace LineBasic

open List

open Parse (Env)

variable {α β : Type}

/-- The operators between integers. -/
abbrev ArithmeticOperator := { operator : Operator // operator.isArithmetic }

/-- An integer expression. The minus of a number belongs to the number; other ones stand before a
variable or before parentheses. -/
inductive Formula where
  | literal (value : Int32)
  | reference (name : String) (indices : List Formula)
  | operation (operator : ArithmeticOperator) (lhs rhs : Formula)
  | negatedReference (name : String) (indices : List Formula)
  | negated (inner : Formula)

/-- What tokens show: their kinds, and the texts of names and literals. -/
abbrev Print := List (TokenKind × String)

def TokenKind.hasText : TokenKind → Bool
  | .identifier | .literal _ => true
  | _ => false

def Token.shown (token : Token) : TokenKind × String :=
  (token.kind, if token.kind.hasText then token.text else "")

theorem Token.kind_of_shown {token : Token} {kind : TokenKind} {text : String}
    (h : token.shown = (kind, text)) : token.kind = kind :=
  (Prod.mk.inj h).1

theorem Token.text_of_shown {token : Token} {kind : TokenKind} {text : String}
    (h : token.shown = (kind, text)) (hasText : kind.hasText) : token.text = text := by
  obtain ⟨rfl, isText⟩ := Prod.mk.inj h
  rwa [if_pos hasText] at isText

namespace Formula

def isOperation : Formula → Bool
  | operation .. => true
  | _ => false

def isSum : Formula → Bool
  | operation operator _ _ => !operator.val.isMultiplicative
  | _ => false

def printNumber (value : Int32) : Print :=
  if value.toInt < 0 then
    [(.operator .minus, ""), (.literal .integer, toString value.toInt.natAbs)]
  else
    [(.literal .integer, toString value.toInt)]

def parenthesize (needed : Bool) (inner : Print) : Print :=
  if needed then (.separator .leftParen, "") :: (inner ++ [(.separator .rightParen, "")]) else inner

mutual

/-- Parentheses stand around a sum on the left of a multiplicative operator, around any operation on
its right, and around a sum on the right of an additive operator. -/
def print : Formula → Print
  | literal value => printNumber value
  | reference name indices => (.identifier, name) :: printIndices indices
  | operation operator lhs rhs =>
    if operator.val.isMultiplicative then
      parenthesize lhs.isSum lhs.print ++
        (.operator operator.val, "") :: parenthesize rhs.isOperation rhs.print
    else
      lhs.print ++ (.operator operator.val, "") :: parenthesize rhs.isSum rhs.print
  | negatedReference name indices =>
    (.operator .minus, "") :: (.identifier, name) :: printIndices indices
  | negated inner => (.operator .minus, "") :: parenthesize true inner.print

def printIndices : List Formula → Print
  | [] => []
  | index :: indices =>
    (.separator .leftBracket, "") :: (index.print ++ [(.separator .rightBracket, "")]) ++
      printIndices indices

end

mutual

/-- Every variable is declared, holds integers and has one index for each of its dimensions. -/
def Suits (env : Env) : Formula → Prop
  | literal _ => True
  | reference name indices | negatedReference name indices =>
    (∃ number v, env.resolve? name = some number ∧ env.symbols[number]? = some v ∧
      v.type = some .int ∧ v.dims.length = indices.length) ∧ SuitAll env indices
  | operation _ lhs rhs => lhs.Suits env ∧ rhs.Suits env
  | negated inner => inner.Suits env

def SuitAll (env : Env) : List Formula → Prop
  | [] => True
  | index :: indices => index.Suits env ∧ SuitAll env indices

end

end Formula

/-- A node for a number. -/
def Node.IsNumber (value : Int32) (node : Node) : Prop :=
  node.kind = .literal { text := toString value.toInt, type := .int } ∧ node.children = []

/-- A node for an operation on integers. -/
def Node.IsOperation (operator : Operator) (left right : Node → Prop) (node : Node) : Prop :=
  ∃ lhs rhs, node.kind = .operator operator (some .int) ∧ node.children = [lhs, rhs] ∧
    left lhs ∧ right rhs

/-- A node for the integer variable that a name stands for. -/
def Node.IsNamed (env : Env) (name : String) (indices : List Node → Prop) (node : Node) : Prop :=
  ∃ number, env.resolve? name = some number ∧ node.kind = .reference number ∧
    env.type? node = some .int ∧ indices node.children

namespace Formula

mutual

/-- The node is the tree of the formula, with whatever numbers its nodes have. -/
def Is (env : Env) : Formula → Node → Prop
  | literal value => Node.IsNumber value
  | reference name indices => Node.IsNamed env name (AreAll env indices)
  | operation operator lhs rhs => Node.IsOperation operator.val (lhs.Is env) (rhs.Is env)
  | negatedReference name indices =>
    Node.IsOperation .star (Node.IsNamed env name (AreAll env indices)) (Node.IsNumber (-1))
  | negated inner => Node.IsOperation .star (inner.Is env) (Node.IsNumber (-1))

def AreAll (env : Env) : List Formula → List Node → Prop
  | [], nodes => nodes = []
  | index :: indices, nodes => ∃ node others, nodes = node :: others ∧ index.Is env node ∧
      AreAll env indices others

end

variable {env : Env} {formula : Formula} {formulas : List Formula} {node : Node} {nodes : List Node}

theorem suitAll_iff : SuitAll env formulas ↔ ∀ formula ∈ formulas, formula.Suits env := by
  induction formulas with
  | nil => simp [SuitAll]
  | cons formula formulas ih => rw [SuitAll, ih, forall_mem_cons]

theorem areAll_iff : AreAll env formulas nodes ↔
    Forall₂ (fun formula node => formula.Is env node) formulas nodes := by
  induction formulas generalizing nodes with
  | nil => rw [AreAll, forall₂_nil_left_iff]
  | cons formula formulas ih =>
    simp only [AreAll, ih, forall₂_cons_left_iff]
    exact ⟨fun ⟨node, others, eq, first, rest⟩ => ⟨node, others, first, rest, eq⟩,
      fun ⟨node, others, first, rest, eq⟩ => ⟨node, others, eq, first, rest⟩⟩

theorem printIndices_eq : printIndices formulas = formulas.flatMap fun index =>
    (.separator .leftBracket, "") :: (index.print ++ [(.separator .rightBracket, "")]) := by
  induction formulas with
  | nil => rfl
  | cons index indices ih => rw [printIndices, ih, flatMap_cons]

theorem neg_toString {i : Int} (negative : i < 0) : "-" ++ toString i.natAbs = toString i := by
  cases i with
  | ofNat n => exact absurd negative (Int.not_lt.mpr (Int.natCast_nonneg n))
  | negSucc n => rfl

theorem Is.type? (h : formula.Is env node) : env.type? node = some .int := by
  cases formula with
  | literal value =>
    rw [Is, Node.IsNumber] at h
    rw [Env.type?, h.1]
    rfl
  | reference name indices =>
    rw [Is, Node.IsNamed] at h
    obtain ⟨_, _, _, type, _⟩ := h
    exact type
  | operation | negatedReference | negated =>
    rw [Is, Node.IsOperation] at h
    obtain ⟨_, _, isKind, _⟩ := h
    rw [Env.type?, isKind]
    rfl

/-- The operands of the operators of one precedence, from the left. -/
def spine (keep : Operator → Bool) : Formula → Formula × List (ArithmeticOperator × Formula)
  | operation operator lhs rhs =>
    if keep operator.val then ((lhs.spine keep).1, (lhs.spine keep).2 ++ [(operator, rhs)])
    else (operation operator lhs rhs, [])
  | formula => (formula, [])

/-- What goes along the operators of one precedence and holds where they end holds of all formulas. -/
theorem spine_induction (keep : Operator → Bool) {motive : Formula → Prop}
    (stop : ∀ formula, formula.spine keep = (formula, []) →
      (∀ operator lhs rhs, formula = operation operator lhs rhs → keep operator.val = false) →
      motive formula)
    (step : ∀ operator lhs rhs, keep operator.val → motive lhs →
      motive (operation operator lhs rhs)) : (formula : Formula) → motive formula
  | literal _ => stop _ (by simp [spine]) nofun
  | reference _ _ => stop _ (by simp [spine]) nofun
  | negatedReference _ _ => stop _ (by simp [spine]) nofun
  | negated _ => stop _ (by simp [spine]) nofun
  | operation operator lhs rhs => by
    by_cases kept : keep operator.val
    · exact step operator lhs rhs kept (spine_induction keep stop step lhs)
    · refine stop _ (by rw [spine, if_neg kept]) ?_
      rintro _ _ _ ⟨⟩
      simpa using kept

def factors (formula : Formula) : Formula × List (ArithmeticOperator × Formula) :=
  formula.spine Operator.isMultiplicative

def terms (formula : Formula) : Formula × List (ArithmeticOperator × Formula) :=
  formula.spine fun operator => !operator.isMultiplicative

def printOperand (formula : Formula) : Print :=
  parenthesize formula.isOperation formula.print

def printTerm (formula : Formula) : Print :=
  parenthesize formula.isSum formula.print

/-- An operator and what stands on its right. -/
def printTail (printRight : Formula → Print) (tail : ArithmeticOperator × Formula) : Print :=
  (.operator tail.1.val, "") :: printRight tail.2

theorem printTerm_eq (formula : Formula) : formula.printTerm =
    formula.factors.1.printOperand ++ formula.factors.2.flatMap (printTail printOperand) := by
  induction formula using spine_induction Operator.isMultiplicative with
  | stop formula eq other =>
    have same : formula.isSum = formula.isOperation := by
      cases formula with
      | operation operator lhs rhs => simp [isSum, isOperation, other operator lhs rhs rfl]
      | _ => rfl
    rw [factors, eq, printTerm, same, printOperand, flatMap_nil, append_nil]
  | step operator lhs rhs kept ih =>
    rw [printTerm] at ih
    rw [factors, spine, if_pos kept, ← factors, printTerm, isSum, kept, print, if_pos kept, ih]
    simp [parenthesize, printTail, printOperand]

theorem print_eq (formula : Formula) : formula.print =
    formula.terms.1.printTerm ++ formula.terms.2.flatMap (printTail printTerm) := by
  induction formula using spine_induction (fun operator => !operator.isMultiplicative) with
  | stop formula eq other =>
    have noSum : formula.isSum = false := by
      cases formula with
      | operation operator lhs rhs => exact other operator lhs rhs rfl
      | _ => rfl
    rw [terms, eq, printTerm, noSum, flatMap_nil, append_nil]
    rfl
  | step operator lhs rhs kept ih =>
    have additive : ¬ operator.val.isMultiplicative := by simpa using kept
    rw [terms, spine, if_pos kept, ← terms, print, if_neg additive, ih]
    simp [printTail, printTerm]

theorem print_ne_nil (formula : Formula) : formula.print ≠ [] := by
  cases formula with
  | literal value =>
    rw [print, printNumber]
    split <;> simp
  | operation operator lhs rhs =>
    rw [print]
    split <;> simp
  | reference | negatedReference | negated => simp [print]

/-- The operands of all operators outside parentheses. -/
def operands (formula : Formula) : Formula × List (ArithmeticOperator × Formula) :=
  (formula.terms.1.factors.1, formula.terms.1.factors.2 ++ formula.terms.2.flatMap fun tail =>
    (tail.1, tail.2.factors.1) :: tail.2.factors.2)

theorem print_eq_operands (formula : Formula) : formula.print =
    formula.operands.1.printOperand ++ formula.operands.2.flatMap (printTail printOperand) := by
  have tails : (printTail printTerm) = fun tail => ((tail.1, tail.2.factors.1) :: tail.2.factors.2 :
      List (ArithmeticOperator × Formula)).flatMap (printTail printOperand) := by
    funext tail
    rw [printTail, printTerm_eq, flatMap_cons, printTail]
    rfl
  rw [print_eq, printTerm_eq, operands, flatMap_append, append_assoc, flatMap_assoc,
    tails]

theorem suits_spine (keep : Operator → Bool) (suits : formula.Suits env) :
    (formula.spine keep).1.Suits env ∧ ∀ tail ∈ (formula.spine keep).2, tail.2.Suits env := by
  induction formula using spine_induction keep with
  | stop formula eq _ =>
    rw [eq]
    exact ⟨suits, by simp⟩
  | step operator lhs rhs kept ih =>
    rw [Suits] at suits
    obtain ⟨first, rest⟩ := ih suits.1
    rw [spine, if_pos kept]
    exact ⟨first, forall_mem_append.mpr ⟨rest, by simpa using suits.2⟩⟩

theorem additive_terms (formula : Formula) :
    ∀ term ∈ formula.terms.2, term.1.val.isMultiplicative = false := by
  induction formula using spine_induction (fun operator => !operator.isMultiplicative) with
  | stop formula eq _ => simp [terms, eq]
  | step operator lhs rhs kept ih =>
    rw [terms, spine, if_pos kept]
    exact forall_mem_append.mpr ⟨ih, by simpa using kept⟩

theorem suits_operands (suits : formula.Suits env) :
    formula.operands.1.Suits env ∧ ∀ tail ∈ formula.operands.2, tail.2.Suits env := by
  obtain ⟨first, rest⟩ := suits_spine (fun operator => !operator.isMultiplicative) suits
  obtain ⟨first', rest'⟩ := suits_spine Operator.isMultiplicative first
  refine ⟨first', forall_mem_append.mpr ⟨rest', fun tail mem => ?_⟩⟩
  obtain ⟨term, mem, mem'⟩ := mem_flatMap.mp mem
  obtain ⟨inner, others⟩ := suits_spine Operator.isMultiplicative (rest term mem)
  rcases mem_cons.mp mem' with rfl | mem'
  · exact inner
  · exact others tail mem'

end Formula

theorem forall₂_append_right {R : α → β → Prop} {as : List α} {bs others : List β}
    (h : Forall₂ R as (bs ++ others)) : ∃ front back, as = front ++ back ∧
      Forall₂ R front bs ∧ Forall₂ R back others :=
  ⟨_, _, (take_append_drop bs.length as).symm, forall₂_take_append as bs others h,
    forall₂_drop_append as bs others h⟩

namespace Check

variable {base : Env} {lhs rhs : Node} {nodes : List Node}

/-- The check succeeds and gives out numbers at most. -/
def Settles (base : Env) (check : Check α) (good : α → Prop) : Prop :=
  ∀ size, ∃ a size', check.Yields { base with size } a { base with size := size' } ∧ good a

theorem settles_literal {token : Token} {value : Int32} {negative : Bool}
    (text : (if negative then "-" ++ token.text else token.text) = toString value.toInt) :
    Settles base (literal token .integer negative) (Node.IsNumber value) := by
  intro size
  refine ⟨⟨size, base.line, .literal { text := toString value.toInt, type := .int }, []⟩, size + 1,
    ?_, rfl, rfl⟩
  unfold literal
  simp only [text, Text.int32?_toString, reduceCtorEq, and_false, if_false]
  rfl

theorem yields_binary (left : base.type? lhs = some .int) (right : base.type? rhs = some .int)
    (operator : Operator) (token : Token) (size : Nat) :
    (binary operator token lhs rhs).Yields { base with size }
      ⟨size, base.line, .operator operator (some .int), [lhs, rhs]⟩ { base with size := size + 1 } := by
  refine yields_fresh_bind.mpr (yields_bind.mpr ⟨some .int, { base with size := size + 1 }, ?_, rfl⟩)
  refine yields_get_bind.mpr ?_
  have left : Env.type? { base with size := size + 1 } lhs = some .int := left
  have right : Env.type? { base with size := size + 1 } rhs = some .int := right
  rw [left, right]
  rfl

theorem settles_negated {good : Node → Prop} {operand : Node} (minus : Token)
    (type : base.type? operand = some .int) (isGood : good operand) :
    Settles base (negated minus operand) (Node.IsOperation .star good (Node.IsNumber (-1))) := by
  intro size
  let one : Node := ⟨size + 1, base.line, .literal { text := "-1", type := .int }, []⟩
  refine ⟨⟨size, base.line, .operator .star (some .int), [operand, one]⟩, size + 2, ?_,
    ⟨_, _, rfl, rfl, isGood, ⟨by simp [one]; decide, rfl⟩⟩⟩
  refine yields_fresh_bind.mpr (yields_bind.mpr ⟨one, { base with size := size + 2 }, rfl, ?_⟩)
  refine yields_bind.mpr ⟨some .int, { base with size := size + 2 }, yields_get_bind.mpr ?_, rfl⟩
  have type : Env.type? { base with size := size + 2 } operand = some .int := type
  rw [type]
  rfl

theorem settles_readVariable {name : Token} {number : Nat} {v : Variable}
    (resolved : base.resolve? name.text = some number) (declared : base.symbols[number]? = some v)
    (type : v.type = some .int) (indexed : v.dims.length = nodes.length) {indices : List Node → Prop} (isGood : indices nodes) :
    Settles base (readVariable name nodes) (Node.IsNamed base name.text indices) := by
  intro size
  refine ⟨⟨size, base.line, .reference number, nodes⟩, size + 1, ?_,
    ⟨number, resolved, rfl, ?_, isGood⟩⟩
  · have resolved : Env.resolve? { base with size } name.text = some number := resolved
    refine yields_get_bind.mpr ?_
    rw [resolved]
    refine yields_get_bind.mpr ?_
    dsimp only
    rw [declared, if_neg (by simp [indexed])]
    rfl
  · rw [Env.type?, NodeKind.type?, declared, Option.bind_some, type]

theorem settles_checkIndex {index : Node} (bracket : Token) (type : base.type? index = some .int) :
    Settles base (checkIndex bracket index) fun _ => True := by
  intro size
  have type : Env.type? { base with size } index = some .int := type
  refine ⟨(), size, yields_get_bind.mpr ?_, trivial⟩
  rw [type]
  rfl

/-- The tail is an operator with a right operand. -/
def Tail.Is (env : Env) (tail : Tail) (printed : ArithmeticOperator × Formula) : Prop :=
  tail.1 = printed.1.val ∧ printed.2.Is env tail.2.2

/-- Operators of one precedence are joined from the left, whatever comes behind them. -/
theorem exec_spine {keep : Operator → Bool} (join : Node → List Tail → Check α)
    (step : ∀ node operator token right more, keep operator → join node ((operator, token, right) :: more) =
      binary operator token node right >>= fun joined => join joined more)
    {formula : Formula} {first : Node} {rest : List Tail}
    (isFirst : (formula.spine keep).1.Is base first)
    (isRest : Forall₂ (Tail.Is base) rest (formula.spine keep).2) (size : Nat) :
    ∃ node size', formula.Is base node ∧ ∀ more,
      (join first (rest ++ more)).exec { base with size } =
        (join node more).exec { base with size := size' } := by
  induction formula using Formula.spine_induction keep generalizing rest with
  | stop formula eq _ =>
    rw [eq] at isFirst isRest
    cases isRest
    exact ⟨first, size, isFirst, fun _ => rfl⟩
  | step operator lhs rhs kept ih =>
    have isSpine : (Formula.operation operator lhs rhs).spine keep =
        ((lhs.spine keep).1, (lhs.spine keep).2 ++ [(operator, rhs)]) := by
      rw [Formula.spine, if_pos kept]
    rw [isSpine] at isFirst isRest
    obtain ⟨left, last, rfl, isLeft, isLast⟩ := forall₂_append_right isRest
    obtain ⟨⟨_, token, right⟩, _, ⟨rfl, isRight⟩, nothing, rfl⟩ := forall₂_cons_right_iff.mp isLast
    cases nothing
    obtain ⟨node, size', isNode, joined⟩ := ih isFirst isLeft
    refine ⟨⟨size', base.line, .operator operator.val (some .int), [node, right]⟩, size' + 1, ?_,
      fun more => ?_⟩
    · rw [Formula.Is]
      exact ⟨node, right, rfl, rfl, isNode, isRight⟩
    · have operation := yields_binary isNode.type? isRight.type? operator.val token size'
      rw [append_assoc, joined, singleton_append, step _ _ _ _ _ kept, exec_bind, operation]

theorem joinFactors_cons (node : Node) (operator : Operator) (token : Token) (right : Node)
    (more : List Tail) (multiplicative : operator.isMultiplicative) :
    joinFactors node ((operator, token, right) :: more) =
      binary operator token node right >>= fun joined => joinFactors joined more := by
  rw [joinFactors, if_pos multiplicative]

/-- The terms of a sum are made of their factors, one after another. -/
theorem settles_joinFactors {terms : List (ArithmeticOperator × Formula)}
    (additive : ∀ term ∈ terms, term.1.val.isMultiplicative = false) {tails : List Tail}
    (are : Forall₂ (Tail.Is base) tails (terms.flatMap fun term =>
      (term.1, term.2.factors.1) :: term.2.factors.2)) (left : Node) :
    Settles base (joinFactors left tails) fun joined =>
      joined.1 = left ∧ Forall₂ (Tail.Is base) joined.2 terms := by
  induction terms generalizing tails left with
  | nil =>
    cases are
    exact fun size => ⟨(left, []), size, rfl, rfl, .nil⟩
  | cons term terms ih =>
    intro size
    obtain ⟨first, rest⟩ := forall_mem_cons.mp additive
    rw [flatMap_cons] at are
    obtain ⟨mine, more, rfl, isMine, isMore⟩ := forall₂_append_right are
    obtain ⟨⟨_, token, right⟩, factors, ⟨rfl, isRight⟩, areFactors, rfl⟩ :=
      forall₂_cons_right_iff.mp isMine
    obtain ⟨node, size₁, isNode, joined⟩ :=
      exec_spine joinFactors joinFactors_cons isRight areFactors size
    obtain ⟨⟨product, tails⟩, size', yields, rfl, areTerms⟩ := ih rest isMore node size₁
    refine ⟨(left, (term.1.val, token, product) :: tails), size', ?_, rfl, .cons ⟨rfl, isNode⟩ areTerms⟩
    rw [cons_append, joinFactors, if_neg (by simp [first])]
    exact yields_bind.mpr ⟨_, _, (joined more).trans yields, rfl⟩

theorem settles_join {formula : Formula} {first : Node} {tails : List Tail}
    (isFirst : formula.operands.1.Is base first)
    (are : Forall₂ (Tail.Is base) tails formula.operands.2) :
    Settles base (join first tails) (formula.Is base) := by
  intro size
  obtain ⟨mine, more, rfl, isMine, isMore⟩ := forall₂_append_right are
  obtain ⟨node, size₁, isNode, joined⟩ :=
    exec_spine joinFactors joinFactors_cons isFirst isMine size
  obtain ⟨⟨product, terms⟩, size₂, yields, rfl, areTerms⟩ :=
    settles_joinFactors formula.additive_terms isMore node size₁
  obtain ⟨sum, size₃, isSum, joined'⟩ :=
    exec_spine joinTerms (fun _ _ _ _ _ _ => rfl) isNode areTerms size₂
  have ended := joined' []
  rw [append_nil] at ended
  refine ⟨sum, size₃, ?_, isSum⟩
  exact yields_bind.mpr ⟨_, _, (joined more).trans yields, ended⟩

end Check

theorem length_le_flatMap {items : List β} {item : β} (print : β → Print) (mem : item ∈ items) :
    (print item).length ≤ (items.flatMap print).length := by
  rw [flatMap_def]
  exact (sublist_flatten_of_mem (mem_map_of_mem mem)).length_le

namespace Parse

open Formula (printIndices printOperand printTail AreAll)

variable {base : Env} {parser : Parse α} {print more : Print} {fits ends : List Token → Prop}
  {good : α → Prop} {good' : β → Prop} {kind : TokenKind} {text : String}

/-- Wherever tokens with this print stand before what fits, the parser reads them and no others. It
gives out numbers at most, and its result is as it should be. -/
def Consumes (base : Env) (parser : Parse α) (print : Print) (fits : List Token → Prop)
    (good : α → Prop) : Prop :=
  ∀ (tokens rest past : List Token) (size : Nat), tokens.map Token.shown = print → fits rest →
    ∃ a size', parser.Yields ⟨past, tokens ++ rest⟩ { base with size } a
      ⟨tokens.reverse ++ past, rest⟩ { base with size := size' } ∧ good a

namespace Consumes

theorem bind {next : α → Parse β} (first : Consumes base parser print fits good)
    (second : ∀ a, good a → Consumes base (next a) more ends good')
    (follows : ∀ tokens rest, tokens.map Token.shown = more → ends rest → fits (tokens ++ rest)) :
    Consumes base (parser >>= next) (print ++ more) ends good' := by
  intro tokens rest past size printed fit
  obtain ⟨front, back, rfl, isFront, isBack⟩ := map_eq_append_iff.mp printed
  obtain ⟨a, size₁, h₁, isGood⟩ :=
    first front (back ++ rest) past size isFront (follows back rest isBack fit)
  obtain ⟨b, size', h₂, isGood'⟩ := second a isGood back rest (front.reverse ++ past) size₁ isBack fit
  have both := yields_bind.mpr ⟨a, _, _, h₁, h₂⟩
  exact ⟨b, size', by simpa only [append_assoc, reverse_append] using both, isGood'⟩

theorem last {next : α → Parse β} (first : Consumes base parser print fits good)
    (second : ∀ a, good a → Consumes base (next a) [] fits good') :
    Consumes base (parser >>= next) print fits good' := by
  rw [← append_nil print]
  refine first.bind second fun tokens rest none fit => ?_
  cases map_eq_nil_iff.mp none
  exact fit

theorem pure {a : α} (isGood : good a) : Consumes base (pure a) [] fits good := by
  intro tokens rest past size printed _
  cases map_eq_nil_iff.mp printed
  exact ⟨a, size, rfl, isGood⟩

theorem lift {check : Check α} (settles : Check.Settles base check good) :
    Consumes base (liftM check) [] fits good := by
  intro tokens rest past size printed _
  cases map_eq_nil_iff.mp printed
  obtain ⟨a, size', yields, isGood⟩ := settles size
  exact ⟨a, size', yields_lift.mpr ⟨yields, rfl⟩, isGood⟩

theorem one_bind {next : α → Parse β} (result : Token → α)
    (reads : ∀ token past rest size, token.shown = (kind, text) →
      parser.Yields ⟨past, token :: rest⟩ { base with size } (result token) ⟨token :: past, rest⟩
        { base with size })
    (then_ : ∀ token, token.shown = (kind, text) → Consumes base (next (result token)) more ends good') :
    Consumes base (parser >>= next) ((kind, text) :: more) ends good' := by
  intro tokens rest past size printed fit
  obtain ⟨token, tokens, rfl, shown, printed⟩ := map_eq_cons_iff.mp printed
  obtain ⟨b, size', yields, isGood⟩ := then_ token shown tokens rest (token :: past) size printed fit
  have both := yields_bind.mpr ⟨_, _, _, reads token past (tokens ++ rest) size shown, yields⟩
  exact ⟨b, size', by simpa using both, isGood⟩

theorem advance_bind {next : Token → Parse β}
    (then_ : ∀ token, token.shown = (kind, text) → Consumes base (next token) more ends good') :
    Consumes base (advance >>= next) ((kind, text) :: more) ends good' :=
  one_bind id (fun _ _ _ _ _ => rfl) then_

theorem expect_bind {next : Token → Parse β}
    (then_ : ∀ token, Consumes base (next token) more ends good') :
    Consumes base (expect kind >>= next) ((kind, text) :: more) ends good' :=
  one_bind id (fun _ _ _ _ shown => exec_expect_cons (Token.kind_of_shown shown))
    fun token _ => then_ token

theorem accept?_bind {next : Option Token → Parse β}
    (then_ : ∀ token, Consumes base (next (some token)) more ends good') :
    Consumes base (accept? kind >>= next) ((kind, text) :: more) ends good' :=
  one_bind some (fun token _ _ _ shown => yields_accept?.mpr
    ⟨rfl, .inl ⟨token, rfl, rfl, rfl, Token.kind_of_shown shown⟩⟩) fun token _ => then_ token

theorem many {item : Parse (Option α)} {items : List β} {printItem : β → Print} {R : β → α → Prop}
    (each : ∀ b ∈ items, Consumes base item (printItem b) fits fun found => ∃ a, found = some a ∧ R b a)
    (starts : ∀ b ∈ items, ∀ tokens rest, tokens.map Token.shown = printItem b →
      tokens ≠ [] ∧ fits (tokens ++ rest))
    (stops : ∀ (past rest : List Token) (env : Env), ends rest →
      fits rest ∧ item.Yields ⟨past, rest⟩ env none ⟨past, rest⟩ env) :
    Consumes base (Parse.many item) (items.flatMap printItem) ends (Forall₂ R items) := by
  intro tokens rest past size printed ended
  suffices ∃ as size', Repeats item ⟨past, tokens ++ rest⟩ { base with size } as
      ⟨tokens.reverse ++ past, rest⟩ { base with size := size' } ∧ Forall₂ R items as by
    obtain ⟨as, size', repeats, related⟩ := this
    exact ⟨as, size', repeats.many, related⟩
  induction items generalizing tokens past size with
  | nil =>
    cases map_eq_nil_iff.mp printed
    exact ⟨[], size, .stop (stops past rest _ ended).2, .nil⟩
  | cons b items ih =>
    obtain ⟨here, others⟩ := forall_mem_cons.mp each
    obtain ⟨start, laters⟩ := forall_mem_cons.mp starts
    rw [flatMap_cons] at printed
    obtain ⟨front, back, rfl, isFront, isBack⟩ := map_eq_append_iff.mp printed
    have fit : fits (back ++ rest) := by
      cases items with
      | nil =>
        cases map_eq_nil_iff.mp isBack
        exact (stops past rest base ended).1
      | cons next items =>
        obtain ⟨part, more, rfl, isPart, _⟩ := map_eq_append_iff.mp isBack
        rw [append_assoc]
        exact (laters next (.head _) part _ isPart).2
    obtain ⟨_, size₁, read, a, rfl, related⟩ := here front (back ++ rest) past size isFront fit
    obtain ⟨as, size', repeats, relateds⟩ :=
      ih others laters back (front.reverse ++ past) size₁ isBack
    have fewer : (back ++ rest).length < (front ++ (back ++ rest)).length := by
      have := length_pos_iff.mpr (start front rest isFront).1
      simp only [length_append]
      omega
    have both := Repeats.more read fewer repeats
    exact ⟨a :: as, size', by simpa only [append_assoc, reverse_append] using both,
      .cons related relateds⟩

end Consumes

theorem ends_of_shown {tokens rest : List Token} (h : tokens.map Token.shown = (kind, text) :: more)
    (other : kind ≠ .separator .leftBracket)
    (operator : ∀ operator, kind = .operator operator → operator.isArithmetic = false) :
    Ends (tokens ++ rest) := by
  obtain ⟨token, tokens, rfl, shown, _⟩ := map_eq_cons_iff.mp h
  cases Token.kind_of_shown shown
  exact .cons other operator

theorem unindexed_of_shown {tokens rest : List Token}
    (h : tokens.map Token.shown = (kind, text) :: more) (other : kind ≠ .separator .leftBracket) :
    Unindexed (tokens ++ rest) := by
  obtain ⟨token, tokens, rfl, shown, _⟩ := map_eq_cons_iff.mp h
  cases Token.kind_of_shown shown
  exact .cons other

section Operands

variable {expression : Parse Node} {bound : Nat} {formula : Formula}
  (reads : ∀ inner : Formula, inner.Suits base → inner.print.length < bound →
    Consumes base expression inner.print Ends (inner.Is base))
include reads

theorem consumes_index (suits : formula.Suits base) (short : formula.print.length < bound) :
    Consumes base (index expression)
      ((.separator .leftBracket, "") :: (formula.print ++ [(.separator .rightBracket, "")]))
      (fun _ => True) fun found => ∃ node, found = some node ∧ formula.Is base node := by
  refine .accept?_bind fun bracket => (reads formula suits short).bind (fun node isNode => ?_)
    fun _ _ shown _ => ends_of_shown shown (by decide) (by simp)
  refine .expect_bind fun _ => ?_
  exact (Consumes.lift (Check.settles_checkIndex bracket isNode.type?)).last
    fun _ _ => .pure ⟨node, rfl, isNode⟩

theorem consumes_indices {indices : List Formula} (suits : ∀ index ∈ indices, index.Suits base)
    (short : (printIndices indices).length < bound) :
    Consumes base (Parse.indices expression) (printIndices indices) Unindexed
      (AreAll base indices) := by
  simp only [funext fun nodes => propext (@Formula.areAll_iff base indices nodes)]
  rw [Formula.printIndices_eq] at short ⊢
  refine .many (fun index mem => consumes_index reads (suits index mem) ?_) (fun index _ tokens rest shown => ?_)
    fun past rest env unindexed => ⟨trivial, ?_⟩
  · have part := Nat.lt_of_le_of_lt (length_le_flatMap _ mem) short
    simp only [length_cons, length_append] at part
    omega
  · refine ⟨?_, trivial⟩
    rintro rfl
    cases shown
  · exact yields_bind.mpr ⟨none, _, _, yields_accept?.mpr ⟨rfl, .inr ⟨rfl, rfl, unindexed⟩⟩, rfl⟩

theorem consumes_variableRead {name : Token} {indices : List Formula}
    (suits : (Formula.reference name.text indices).Suits base)
    (short : (printIndices indices).length < bound) :
    Consumes base (variableRead expression name) (printIndices indices) Unindexed
      (Node.IsNamed base name.text (AreAll base indices)) := by
  rw [Formula.Suits] at suits
  obtain ⟨⟨number, v, resolved, declared, type, dims⟩, all⟩ := suits
  refine (consumes_indices reads (Formula.suitAll_iff.mp all) short).last fun nodes are => ?_
  exact .lift (Check.settles_readVariable resolved declared type
    (dims.trans (Formula.areAll_iff.mp are).length_eq) are)

theorem consumes_parenthesized (suits : formula.Suits base) (short : formula.print.length < bound) :
    Consumes base (parenthesized expression) (formula.print ++ [(.separator .rightParen, "")]) fits
      (formula.Is base) := by
  refine (reads formula suits short).bind (fun node isNode => ?_)
    fun _ _ shown _ => ends_of_shown shown (by decide) (by simp)
  exact .expect_bind fun _ => .pure isNode

theorem consumes_operand (suits : formula.Suits base) (short : formula.printOperand.length ≤ bound) :
    Consumes base (operand expression) formula.printOperand Unindexed (formula.Is base) := by
  cases formula with
  | literal value =>
    show Consumes base _ (Formula.print _) _ _
    rw [Formula.print, Formula.printNumber, Formula.Is]
    split
    next negative =>
      refine .advance_bind fun minus shown => ?_
      rw [Token.kind_of_shown shown]
      refine .advance_bind fun digits shown => ?_
      rw [Token.kind_of_shown shown]
      refine .lift (Check.settles_literal ?_)
      rw [if_pos rfl, Token.text_of_shown shown rfl]
      exact Formula.neg_toString negative
    next =>
      refine .advance_bind fun digits shown => ?_
      rw [Token.kind_of_shown shown]
      exact .lift (Check.settles_literal (Token.text_of_shown shown rfl))
  | reference name indices =>
    show Consumes base _ (Formula.print _) _ _
    have short : (Formula.print _).length ≤ bound := short
    rw [Formula.print] at short ⊢
    refine .advance_bind fun token shown => ?_
    obtain rfl := Token.text_of_shown shown rfl
    rw [Token.kind_of_shown shown, Formula.Is]
    exact consumes_variableRead reads suits short
  | operation operator lhs rhs =>
    have short : (Formula.parenthesize true _).length ≤ bound := short
    rw [Formula.parenthesize, if_pos rfl, length_cons, length_append] at short
    refine .advance_bind fun token shown => ?_
    rw [Token.kind_of_shown shown]
    exact consumes_parenthesized reads suits (by omega)
  | negatedReference name indices =>
    show Consumes base _ (Formula.print _) _ _
    have short : (Formula.print _).length ≤ bound := short
    rw [Formula.print] at short ⊢
    simp only [length_cons] at short
    refine .advance_bind fun minus shown => ?_
    rw [Token.kind_of_shown shown]
    refine .advance_bind fun token shown => ?_
    obtain rfl := Token.text_of_shown shown rfl
    rw [Token.kind_of_shown shown, Formula.Is]
    have suits : (Formula.reference token.text indices).Suits base := by
      simpa only [Formula.Suits] using suits
    refine (consumes_variableRead reads suits (by omega)).last fun node isNode => ?_
    have ⟨_, _, _, type, _⟩ := isNode
    exact .lift (Check.settles_negated minus type isNode)
  | negated inner =>
    show Consumes base _ (Formula.print _) _ _
    have short : (Formula.print _).length ≤ bound := short
    rw [Formula.print, Formula.parenthesize, if_pos rfl] at short ⊢
    simp only [length_cons, length_append] at short
    rw [Formula.Suits] at suits
    refine .advance_bind fun minus shown => ?_
    rw [Token.kind_of_shown shown]
    refine .advance_bind fun token shown => ?_
    rw [Token.kind_of_shown shown, Formula.Is]
    exact (consumes_parenthesized reads suits (by omega)).last fun node isNode =>
      .lift (Check.settles_negated minus isNode.type? isNode)

theorem consumes_tail (operator : ArithmeticOperator) (suits : formula.Suits base)
    (short : formula.printOperand.length ≤ bound) :
    Consumes base (tail expression) (printTail printOperand (operator, formula))
      Unindexed fun found => ∃ tail, found = some tail ∧ Check.Tail.Is base tail (operator, formula) := by
  intro tokens rest past size printed fit
  have read : Consumes base (advance >>= fun token => operand expression >>= fun node =>
      pure (some (operator.val, token, node))) (printTail printOperand (operator, formula))
      Unindexed fun found => ∃ tail, found = some tail ∧
        Check.Tail.Is base tail (operator, formula) := by
    exact .advance_bind fun token _ => (consumes_operand reads suits short).last
      fun node isNode => .pure ⟨_, rfl, rfl, isNode⟩
  obtain ⟨found, size', yields, isGood⟩ := read tokens rest past size printed fit
  obtain ⟨token, tokens, rfl, shown, _⟩ := map_eq_cons_iff.mp printed
  refine ⟨found, size', yields_peekKind?_bind.mpr ?_, isGood⟩
  have peek : TokenStream.peekKind? ⟨past, token :: tokens ++ rest⟩ = some (.operator operator.val) :=
    congrArg some (Token.kind_of_shown shown)
  rw [peek]
  dsimp only
  rw [if_pos operator.property]
  exact yields

omit reads in
theorem yields_tail_none {past rest : List Token} {env : Env} (ends : Ends rest) :
    (tail expression).Yields ⟨past, rest⟩ env none ⟨past, rest⟩ env := by
  refine yields_peekKind?_bind.mpr ?_
  split
  next operator seen =>
    obtain ⟨token, mem, isKind⟩ := Option.map_eq_some_iff.mp seen
    rw [if_neg (by simp [ends.operator token mem operator isKind])]
    rfl
  next => rfl

theorem consumes_expressionOver (suits : formula.Suits base) (short : formula.print.length ≤ bound) :
    Consumes base (expressionOver expression) formula.print Ends (formula.Is base) := by
  have parts := Formula.suits_operands suits
  rw [Formula.print_eq_operands] at short ⊢
  rw [length_append] at short
  have part (tail : ArithmeticOperator × Formula) (mem : tail ∈ formula.operands.2) :
      tail.2.printOperand.length ≤ bound := by
    have part := length_le_flatMap (printTail printOperand) mem
    rw [printTail, length_cons] at part
    omega
  have tails : Consumes base (many (tail expression))
      (formula.operands.2.flatMap (printTail printOperand)) Ends
      (Forall₂ (fun printed tail => Check.Tail.Is base tail printed) formula.operands.2) := by
    refine .many (fun tail mem => consumes_tail reads tail.1 (parts.2 tail mem) (part tail mem))
      (fun tail _ tokens rest shown => ⟨?_, unindexed_of_shown shown (by simp)⟩)
      fun past rest env ends => ⟨ends.unindexed, yields_tail_none ends⟩
    rintro rfl
    cases shown
  refine (consumes_operand reads parts.1 (by omega)).bind (fun first isFirst => ?_) ?_
  · exact tails.last fun tails are => .lift (Check.settles_join isFirst are.flip)
  · intro tokens rest shown ends
    cases tails : formula.operands.2 with
    | nil =>
      rw [tails] at shown
      cases map_eq_nil_iff.mp shown
      exact ends.unindexed
    | cons tail tails' =>
      rw [tails] at shown
      exact unindexed_of_shown shown (by simp)

end Operands

theorem consumes_expressionWithin {formula : Formula} {depth : Nat} (suits : formula.Suits base)
    (short : formula.print.length ≤ depth) :
    Consumes base (expressionWithin depth) formula.print Ends (formula.Is base) := by
  induction depth generalizing formula with
  | zero => exact absurd (length_eq_zero_iff.mp (Nat.le_zero.mp short)) formula.print_ne_nil
  | succ depth ih =>
    exact consumes_expressionOver (fun inner suits shorter => ih suits (Nat.le_of_lt_succ shorter))
      suits short

end Parse

/-- The tokens of a printed formula, before anything that does not go on with it, are read as the
formula's tree, and no others are read. Nothing is reported or declared. -/
theorem expression_of_print {env : Env} {formula : Formula} (suits : formula.Suits env)
    {tokens rest : List Token} (printed : tokens.map Token.shown = formula.print)
    (ends : Parse.Ends rest) (past : List Token) :
    ∃ node size, Parse.expression.Yields ⟨past, tokens ++ rest⟩ env node ⟨tokens.reverse ++ past, rest⟩
      { env with size } ∧ formula.Is env node := by
  have short : formula.print.length ≤ (tokens ++ rest).length := by
    rw [← printed, length_map, length_append]
    exact Nat.le_add_right ..
  obtain ⟨node, size, yields, isNode⟩ :=
    Parse.consumes_expressionWithin suits short tokens rest past env.size printed ends
  exact ⟨node, size, Parse.yields_get_bind.mpr yields, isNode⟩

/-- Signs and parentheses of all kinds, and an operator of each precedence behind the other. -/
theorem expression_of_print_mixed :
    let env : Env := {
      collect := false
      symbols := #[{ name := "A", dims := [], scope := 0, type := some .int },
        { name := "B", dims := [4], scope := 0, type := some .int }]
      program := { id := 0, line := 0, vars := [0, 1] } }
    let a : Formula := .reference "A" []
    let formula : Formula := .operation ⟨.minus, rfl⟩
      (.operation ⟨.caret, rfl⟩ (.operation ⟨.star, rfl⟩ (.operation ⟨.plus, rfl⟩ a (.literal (-3)))
        (.negatedReference "B" [.operation ⟨.minus, rfl⟩ a (.literal 1)]))
        (.operation ⟨.slash, rfl⟩ (.literal 2) a))
      (.negated a)
    ∃ tokens newline node size,
      tokenize "(A + -3) * -B[A - 1] ^ (2 / A) - -(A)\n" = .ok (tokens ++ [newline]) ∧
      Parse.expression.Yields ⟨[], tokens ++ [newline]⟩ env node ⟨tokens.reverse, [newline]⟩
        { env with size } ∧ formula.Is env node := by
  intro env a formula
  generalize hs : "(A + -3) * -B[A - 1] ^ (2 / A) - -(A)\n" = source
  have evaluated : ((tokenize source).toOption.map fun tokens =>
      (decide (tokens.dropLast.map Token.shown = formula.print), tokens.getLast?.map Token.kind)) =
      some (true, some (.separator .newline)) := by
    subst hs
    decide +kernel
  obtain ⟨all, scanned, shown⟩ := Option.map_eq_some_iff.mp evaluated
  obtain ⟨printed, last⟩ := Prod.mk.inj shown
  obtain ⟨newline, isLast, isNewline⟩ := Option.map_eq_some_iff.mp last
  have split := dropLast_append_getLast? newline isLast
  have declared (name : String) (dims : Nat) (h : (name, dims) ∈ [("A", 0), ("B", 1)]) :
      ∃ number v, env.resolve? name = some number ∧ env.symbols[number]? = some v ∧
        v.type = some .int ∧ v.dims.length = dims := by
    simp only [mem_cons, Prod.mk.injEq, not_mem_nil, or_false] at h
    rcases h with ⟨rfl, rfl⟩ | ⟨rfl, rfl⟩
    · exact ⟨0, _, by decide, rfl, rfl, rfl⟩
    · exact ⟨1, _, by decide, rfl, rfl, rfl⟩
  have suits : formula.Suits env := by
    simp only [formula, a, Formula.Suits, Formula.SuitAll, and_true, true_and]
    exact ⟨⟨⟨declared "A" 0 (by simp), declared "B" 1 (by simp), declared "A" 0 (by simp)⟩,
      declared "A" 0 (by simp)⟩, declared "A" 0 (by simp)⟩
  have ends : Parse.Ends [newline] := .cons (by simp [isNewline]) (by simp [isNewline])
  obtain ⟨node, size, yields, isNode⟩ :=
    expression_of_print suits (of_decide_eq_true printed) ends []
  refine ⟨all.dropLast, newline, node, size, ?_, ?_, isNode⟩
  · rw [split]
    exact eq_ok_of_toOption scanned
  · rw [append_nil] at yields
    exact yields

end LineBasic
