import LineBasic.Proofs.Parse.Along
import LineBasic.Proofs.Parse.Growth
import LineBasic.Proofs.Parse.Scoping
import LineBasic.Proofs.Tree.Typing

/-!
What the phrases of the grammar do to the state of a parse.
-/

namespace LineBasic

open List

@[simp] theorem namesIn_nil : namesIn [] = [] := rfl

@[simp] theorem namesIn_append (tokens others : List Token) :
    namesIn (tokens ++ others) = namesIn tokens ++ namesIn others :=
  filterMap_append

theorem namesIn_name {token : Token} {tokens : List Token} (h : token.kind = .identifier) :
    namesIn (token :: tokens) = token.text :: namesIn tokens := by
  simp [namesIn, Token.name?, h]

theorem namesIn_other {token : Token} {tokens : List Token} (h : token.kind ≠ .identifier) :
    namesIn (token :: tokens) = namesIn tokens := by
  simp [namesIn, Token.name?, h]

namespace Parse

/-- The construct of the grammar that an open block belongs to. -/
def Opening.construct : Opening → Grammar.Construct
  | loop .. => .loop
  | branch .. => .branch
  | otherwise .. => .otherwise

namespace Env

/-- The constructs that are open, innermost first. -/
def constructs (env : Env) : List Grammar.Construct :=
  env.blocks.map fun opened => opened.opening.construct

def numbers (env : Env) : List Nat :=
  env.lines.map Prod.fst

/-- States between which no line and no block begins or ends. -/
structure Same (env env' : Env) : Prop where
  collect : env'.collect = env.collect
  numbers : env'.numbers = env.numbers
  constructs : env'.constructs = env.constructs

theorem Same.refl (env : Env) : Same env env :=
  ⟨rfl, rfl, rfl⟩

theorem Same.trans {env env₁ env₂ : Env} (first : Same env env₁) (second : Same env₁ env₂) :
    Same env env₂ :=
  ⟨second.collect.trans first.collect, second.numbers.trans first.numbers,
    second.constructs.trans first.constructs⟩

theorem Same.updateCurrent (env : Env) (update : Block → Block) :
    Same env (env.updateCurrent update) := by
  unfold Env.updateCurrent
  split
  next => exact ⟨rfl, rfl, rfl⟩
  next eq => exact ⟨rfl, rfl, by simp [Env.constructs, eq]⟩

theorem Same.markLine (env : Env) : Same env env.markLine := by
  refine ⟨rfl, ?_, rfl⟩
  simp only [Env.numbers, Env.markLine, map_map]
  refine map_congr_left fun line _ => ?_
  simp only [Function.comp]
  split <;> rfl

def types (env : Env) : Types :=
  .ofSymbols env.symbols

theorem type?_eq (env : Env) (node : Node) : env.type? node = node.kind.typeBy? env.types :=
  node.kind.type?_eq env.symbols

/-- States that differ in nothing but the numbers, strings and events given out. -/
def Quiet (env env' : Env) : Prop :=
  env' = { env with size := env'.size, strings := env'.strings, log := env'.log }

namespace Quiet

variable {env env₁ env' : Env}

theorem refl (env : Env) : Quiet env env := rfl

theorem trans (first : Quiet env env₁) (second : Quiet env₁ env') : Quiet env env' := by
  unfold Quiet at *
  rw [second, first]

theorem numbered (env : Env) : Quiet env { env with size := env.size + 1 } := rfl

theorem recorded (env : Env) (log : Array Event) : Quiet env { env with log } := rfl

section

variable (h : Quiet env env')

include h

theorem line : env'.line = env.line := by rw [h]

theorem collect : env'.collect = env.collect := by rw [h]

theorem symbols : env'.symbols = env.symbols := by rw [h]

theorem visible : env'.visible = env.visible := by
  rw [h]
  rfl

theorem types : env'.types = env.types := by
  rw [Env.types, Env.types, h.symbols]

theorem resolve? : env'.resolve? = env.resolve? := by
  rw [h]
  rfl

end

end Quiet

/-- The variables that names stand for, as they are mentioned on the current line. -/
def resolved (env : Env) (names : List String) : List (Option Mention) :=
  names.map fun name => (env.resolve? name).map (.refer env.line)

theorem resolved_append (env : Env) (names others : List String) :
    env.resolved (names ++ others) = env.resolved names ++ env.resolved others :=
  map_append

theorem Quiet.resolved {env env' : Env} (h : Quiet env env') : env'.resolved = env.resolved := by
  unfold Env.resolved
  rw [h.resolve?, h.line]

/-- Tokens are read as expressions: nothing is declared, every name refers to the variable that it
stands for, and types are those known. -/
structure Expresses (env : Env) (tokens : List Token) (nodes : List Node) (env' : Env) : Prop where
  quiet : env.Quiet env'
  mentions : env.resolved (namesIn tokens) = (Node.mentionsAll nodes).map some
  settled : ∀ node ∈ nodes, node.Settled env.types

namespace Expresses

variable {env env₁ env' : Env} {tokens others : List Token} {nodes more : List Node} {token : Token}

theorem nil (env : Env) : Expresses env [] [] env :=
  ⟨.refl env, rfl, by simp⟩

theorem append (first : Expresses env tokens nodes env₁) (second : Expresses env₁ others more env') :
    Expresses env (tokens ++ others) (nodes ++ more) env' where
  quiet := first.quiet.trans second.quiet
  mentions := by
    have later := second.mentions
    rw [first.quiet.resolved] at later
    rw [namesIn_append, resolved_append, first.mentions, later, Node.mentionsAll_append,
      map_append]
  settled node mem := by
    rcases mem_append.mp mem with mem | mem
    · exact first.settled node mem
    · exact first.quiet.types ▸ second.settled node mem

theorem skip (env : Env) (h : namesIn tokens = []) : Expresses env tokens [] env :=
  ⟨.refl env, by simp [resolved, h], by simp⟩

theorem quieten (h : Expresses env tokens nodes env₁) (quiet : env₁.Quiet env') :
    Expresses env tokens nodes env' :=
  ⟨h.quiet.trans quiet, h.mentions, h.settled⟩

theorem replace (h : Expresses env tokens nodes env₁) (quiet : env₁.Quiet env')
    (mentions : Node.mentionsAll more = Node.mentionsAll nodes)
    (settled : ∀ node ∈ more, node.Settled env.types) : Expresses env tokens more env' :=
  ⟨h.quiet.trans quiet, by rw [mentions, h.mentions], settled⟩

end Expresses

/-- Tokens are read as expressions, however faults are treated. -/
structure Reads (env : Env) (tokens : List Token) (nodes : List Node) (env' : Env) : Prop where
  same : env.Same env'
  expresses : env.collect = false → env.Expresses tokens nodes env'
  builds : env.collect = false → AllQuoted tokens → env.Builds nodes env'

namespace Reads

variable {env env₁ env' : Env} {tokens others : List Token} {nodes more : List Node}

theorem nil (env : Env) : Reads env [] [] env :=
  ⟨.refl env, fun _ => .nil env, fun _ _ => .nil env⟩

theorem append (first : Reads env tokens nodes env₁) (second : Reads env₁ others more env') :
    Reads env (tokens ++ others) (nodes ++ more) env' where
  same := first.same.trans second.same
  expresses strict := (first.expresses strict).append
    (second.expresses (first.same.collect.trans strict))
  builds strict quoted := by
    obtain ⟨quoted, quoted'⟩ := forall_mem_append.mp quoted
    exact (first.builds strict quoted).append
      (second.builds (first.same.collect.trans strict) quoted')

theorem skip (env : Env) (h : namesIn tokens = []) : Reads env tokens [] env :=
  ⟨.refl env, fun _ => .skip env h, fun _ _ => .nil env⟩

theorem skip_cons {token : Token} (other : token.kind ≠ .identifier)
    (h : Reads env tokens nodes env') : Reads env (token :: tokens) nodes env' :=
  (skip env (by rw [namesIn_other other]; rfl) : Reads env [token] [] env).append h

theorem skip_concat {token : Token} (other : token.kind ≠ .identifier)
    (h : Reads env tokens nodes env') : Reads env (tokens ++ [token]) nodes env' := by
  have := h.append (skip env' (by rw [namesIn_other other]; rfl) : Reads env' [token] [] env')
  rwa [append_nil] at this

end Reads

end Env

end Parse

theorem Node.Stage.Fits.other {types : Types} {id line : Nat} {kind : NodeKind}
    {nodes : List Node} (operator : ∀ op type, kind ≠ .operator op type) (assign : kind ≠ .assign)
    (println : kind ≠ .println) : Stage.Fits ⟨types, ⟨id, line, kind, nodes⟩⟩ where
  operator op type _ _ eq _ := absurd eq (operator op type)
  assign _ _ eq _ := absurd eq assign
  println _ _ eq _ := absurd eq println

namespace Check

open Parse (Env)

variable {α β : Type}

/-- A check that begins and ends no line and no block, and that succeeds if faults are collected. -/
structure Keeps (check : Check α) : Prop where
  same : ∀ {env : Env} {a : α} {env' : Env}, check.Yields env a env' → env.Same env'
  succeeds : ∀ env : Env, env.collect = true → ∃ a env', check.Yields env a env'

/-- The first of two checks keeps the open lines and blocks, and its results are related to others. -/
def Kept ⦃α : Type⦄ (R : α → α → Prop) (check _ : Check α) : Prop :=
  Keeps check ∧ ∀ {env : Env} {a : α} {env' : Env}, check.Yields env a env' → ∃ b, R a b

theorem Keeps.kept {check check' : Check α} (keeps : Keeps check) : Kept Eq check check' :=
  ⟨keeps, fun _ => ⟨_, rfl⟩⟩

theorem Keeps.modifyGet {f : Env → α × Env} (h : ∀ env : Env, env.Same (f env).2) :
    Keeps (modifyGet f : Check α) where
  same run := by
    obtain ⟨_, rfl⟩ := yields_modifyGet.mp run
    exact h _
  succeeds env _ := ⟨_, _, rfl⟩

theorem keeps_record (event : Event) : Keeps (record event) :=
  .modifyGet fun _ => ⟨rfl, rfl, rfl⟩

theorem keeps_diagnose (fault : Fault) (position : Option Position) :
    Keeps (diagnose fault position) where
  same h := by
    cases h
    exact .refl _
  succeeds env _ := ⟨_, env, rfl⟩

theorem Kept.chain {R : α → α → Prop} {R' : β → β → Prop} {check check' : Check α}
    {next next' : α → Check β} (first : Kept R check check')
    (second : ∀ a b, R a b → Kept R' (next a) (next' b)) :
    Kept R' (check >>= next) (check' >>= next') := by
  refine ⟨⟨fun h => ?_, fun env collect => ?_⟩, fun h => ?_⟩
  · obtain ⟨a, env₁, h₁, h₂⟩ := yields_bind.mp h
    obtain ⟨b, related⟩ := first.2 h₁
    exact (first.1.same h₁).trans ((second a b related).1.same h₂)
  · obtain ⟨a, env₁, h₁⟩ := first.1.succeeds env collect
    obtain ⟨b, related⟩ := first.2 h₁
    obtain ⟨c, env₂, h₂⟩ :=
      (second a b related).1.succeeds env₁ ((first.1.same h₁).collect.trans collect)
    exact ⟨c, env₂, yields_bind.mpr ⟨a, env₁, h₁, h₂⟩⟩
  · obtain ⟨a, env₁, h₁, h₂⟩ := yields_bind.mp h
    obtain ⟨b, related⟩ := first.2 h₁
    exact (second a b related).2 h₂

theorem keeps_report (d : Diagnostic) : Keeps (report d) where
  same {env u env'} h := by
    replace h := yields_get_bind.mp h
    split at h
    · obtain ⟨_, env₁, recorded, noted⟩ := yields_bind.mp h
      obtain rfl := yields_modify.mp noted
      have same := (keeps_record _).same recorded
      exact ⟨same.collect, same.numbers, same.constructs⟩
    · cases h
  succeeds env collect := by
    refine ⟨(), { env with log := env.log.push (.recovered d), errors := env.errors.push d },
      yields_get_bind.mpr ?_⟩
    rw [if_pos collect]
    rfl

theorem keeps_reportAt (token : Token) (fault : SemanticFault) : Keeps (reportAt token fault) := by
  have chained : Kept Eq (reportAt token fault) (reportAt token fault) :=
    (keeps_diagnose _ _).kept.chain fun d _ _ => (keeps_report d).kept
  exact chained.1

theorem along_kept : Along id Eq Kept where
  injective := Function.injective_id
  alike eq := eq ▸ ⟨rfl, rfl⟩
  done related := by
    refine ⟨⟨fun h => ?_, fun env _ => ⟨_, env, rfl⟩⟩, fun h => ?_⟩
    · obtain ⟨_, rfl⟩ := yields_pure.mp h
      exact .refl _
    · obtain ⟨rfl, _⟩ := yields_pure.mp h
      exact ⟨_, related⟩
  chain := Kept.chain
  read h := by
    refine ⟨⟨fun run => ?_, fun env collect => ?_⟩, fun run => ?_⟩
    · exact (h _ _ (.refl _)).1.same (yields_get_bind.mp run)
    · obtain ⟨b, env', run⟩ := (h env env (.refl env)).1.succeeds env collect
      exact ⟨b, env', yields_get_bind.mpr run⟩
    · exact (h _ _ (.refl _)).2 (yields_get_bind.mp run)
  update _ plain _ := by
    refine (Keeps.modifyGet fun env => ⟨(plain env).collect, (plain env).numbers, ?_⟩).kept
    have openings := congrArg (List.map Parse.Opening.construct) (plain env).openings
    rwa [map_map, map_map] at openings
  report _ _ := (keeps_reportAt _ _).kept

theorem keeps_fresh : Keeps fresh :=
  (along_fresh along_kept).1

theorem keeps_node (kind : NodeKind) (nodes : List Node) : Keeps (node kind nodes) :=
  (along_node along_kept kind nodes).1

theorem keeps_declare (name : String) (dims : List Nat) : Keeps (declare name dims) :=
  (along_declare along_kept name dims).1

theorem keeps_setType (number : Nat) (type : Option ValueType) : Keeps (setType number type) :=
  (along_setType along_kept number type).1

theorem keeps_append (n : Node) : Keeps (append n) :=
  (along_append along_kept n).1

theorem keeps_attach (n : Node) : Keeps (attach n) :=
  (along_attach along_kept n).1

theorem keeps_literalNode (text : String) (type : ValueType) : Keeps (literalNode text type) :=
  (along_literalNode along_kept text type).1

theorem keeps_literal (token : Token) (kind : LiteralKind) (negative : Bool) :
    Keeps (literal token kind negative) :=
  (along_literal along_kept rfl kind negative).1

theorem keeps_binary (operator : Operator) (token : Token) (lhs rhs : Node) :
    Keeps (binary operator token lhs rhs) :=
  (along_binary along_kept operator rfl lhs rhs).1

theorem keeps_negated (minus : Token) (operand : Node) : Keeps (negated minus operand) :=
  (along_negated along_kept rfl operand).1

theorem keeps_join (first : Node) (rest : List Tail) : Keeps (join first rest) := by
  have alike : Forall₂ (Tail.Alike id Eq) rest
      (rest.map fun tail => (tail.1, tail.2.1, tail.2.2.renumber id)) :=
    forall₂_map_right_iff.mpr (forall₂_same.mpr fun _ _ => .intro rfl)
  exact (along_join along_kept first alike).1

theorem keeps_checkIndex (bracket : Token) (index : Node) : Keeps (checkIndex bracket index) :=
  (along_checkIndex along_kept rfl index).1

theorem keeps_readVariable (name : Token) (indices : List Node) :
    Keeps (readVariable name indices) :=
  (along_readVariable along_kept rfl indices).1

theorem keeps_writtenVariable (name : Token) (indices : List Node) :
    Keeps (writtenVariable name indices) :=
  (along_writtenVariable along_kept rfl indices).1

theorem keeps_assignment (name : Token) (target value : Node) :
    Keeps (assignment name target value) :=
  (along_assignment along_kept rfl target value).1

theorem keeps_element (number : Nat) (name : Token) (index : List Nat) (token : Token)
    (kind : LiteralKind) (negative : Bool) : Keeps (element number name index token kind negative) :=
  (along_element along_kept number rfl index rfl kind negative).1

section Nodes

variable {env env₁ env' : Env} {n lhs rhs : Node} {nodes before after : List Node}
  {tokens : List Token}

theorem settled_literal {types : Types} {id line : Nat} {value : Literal} :
    Node.Settled types ⟨id, line, .literal value, []⟩ :=
  Node.settled_mk (by simp) (.other (by simp) (by simp) (by simp)) rfl rfl

theorem Yields.literalNode_eq {text : String} {type : ValueType}
    (h : (Check.literalNode text type).Yields env n env') :
    env.Quiet env' ∧ ∃ id line label, n = ⟨id, line, .literal ⟨text, type, label⟩, []⟩ := by
  unfold Check.literalNode at h
  split at h
  next =>
    replace h := yields_get_bind.mp h
    replace h := yields_modify_bind.mp h
    obtain ⟨rfl, rfl⟩ := yields_node.mp h
    exact ⟨rfl, _, _, _, rfl⟩
  next =>
    obtain ⟨rfl, rfl⟩ := yields_node.mp h
    exact ⟨rfl, _, _, _, rfl⟩

theorem Yields.literalNode_reads {text : String} {type : ValueType}
    (h : (Check.literalNode text type).Yields env n env') (noName : namesIn tokens = [])
    (quoted : AllQuoted tokens → type = .string → IsQuoted text)
    (value : env.collect = false → type = .int → (Text.int32? text.toList).isSome) :
    env.Reads tokens [n] env' := by
  refine ⟨(keeps_literalNode _ _).same h, fun _ => ?_, fun strict all =>
    (h.literalNode_builds (quoted all) (value strict)).1⟩
  obtain ⟨quiet, id, line, label, rfl⟩ := h.literalNode_eq
  refine ⟨quiet, by simp [noName, Env.resolved], ?_⟩
  intro node mem
  rw [mem_singleton.mp mem]
  exact settled_literal

theorem Yields.literal_reads {token : Token} {kind : LiteralKind} {negative : Bool}
    (h : (Check.literal token kind negative).Yields env n env') (noName : namesIn tokens = [])
    (quoted : AllQuoted tokens → kind = .text → negative = false ∧ IsQuoted token.text) :
    env.Reads tokens [n] env' := by
  have same := (keeps_literal _ _ _).same h
  unfold Check.literal at h
  generalize eq : (if negative = true then "-" ++ token.text else token.text) = text at h
  dsimp only at h
  split at h
  next =>
    exact ⟨same, fun strict => absurd h (not_yields_reportAt_bind strict),
      fun strict => absurd h (not_yields_reportAt_bind strict)⟩
  next fits =>
    have isText : literalType kind = .string → kind = .text := by cases kind <;> decide
    have isInt : literalType kind = .int → kind = .integer := by cases kind <;> decide
    refine h.literalNode_reads noName (fun all isString => ?_) fun _ isInteger => ?_
    · obtain ⟨rfl, isQuoted⟩ := quoted all (isText isString)
      exact eq ▸ isQuoted
    · exact Option.isSome_iff_ne_none.mpr fun none => fits ⟨isInt isInteger, none⟩

theorem Yields.operationType_eq {token : Token} {type : Option ValueType}
    (h : (Check.operationType token lhs rhs).Yields env type env') (strict : env.collect = false) :
    env = env' ∧
      type = ValueType.combine? (lhs.kind.typeBy? env.types) (rhs.kind.typeBy? env.types) ∧
      (lhs.kind.typeBy? env.types ≠ none → rhs.kind.typeBy? env.types ≠ none → type ≠ none) := by
  replace h := yields_get_bind.mp h
  rw [env.type?_eq, env.type?_eq] at h
  cases left : lhs.kind.typeBy? env.types with
  | none =>
    cases right : rhs.kind.typeBy? env.types with
    | none =>
      rw [left, right] at h
      obtain ⟨rfl, rfl⟩ := yields_pure.mp h
      exact ⟨rfl, rfl, fun h => absurd rfl h⟩
    | some r =>
      rw [left, right] at h
      cases r <;>
        (obtain ⟨rfl, rfl⟩ := yields_pure.mp h
         exact ⟨rfl, rfl, fun h => absurd rfl h⟩)
  | some l =>
    cases right : rhs.kind.typeBy? env.types with
    | none =>
      rw [left, right] at h
      cases l <;>
        (obtain ⟨rfl, rfl⟩ := yields_pure.mp h
         exact ⟨rfl, rfl, fun _ h => absurd rfl h⟩)
    | some r =>
      rw [left, right] at h
      dsimp only at h
      split at h
      next combined =>
        obtain ⟨rfl, rfl⟩ := yields_pure.mp h
        exact ⟨rfl, combined.symm, fun _ _ => by simp⟩
      next => exact absurd h (not_yields_reportAt_bind strict)

theorem settled_operator {types : Types} {id line : Nat} {operator : Operator}
    {type : Option ValueType} (left : lhs.Settled types) (right : rhs.Settled types)
    (combined : type = ValueType.combine? (lhs.kind.typeBy? types) (rhs.kind.typeBy? types))
    (known : lhs.kind.typeBy? types ≠ none → rhs.kind.typeBy? types ≠ none → type ≠ none) :
    Node.Settled types ⟨id, line, .operator operator type, [lhs, rhs]⟩ := by
  refine Node.settled_mk (by simp [left, right]) ⟨?_, by simp, by simp⟩ rfl rfl
  intro op other l r eq operands
  cases eq
  cases operands
  exact ⟨combined, known⟩

theorem Yields.binary_eq {operator : Operator} {token : Token}
    (h : (Check.binary operator token lhs rhs).Yields env n env') (strict : env.collect = false) :
    ∃ type, n = ⟨env.size, env.line, .operator operator type, [lhs, rhs]⟩ ∧
      env' = { env with size := env.size + 1 } ∧
      type = ValueType.combine? (lhs.kind.typeBy? env.types) (rhs.kind.typeBy? env.types) ∧
      (lhs.kind.typeBy? env.types ≠ none → rhs.kind.typeBy? env.types ≠ none → type ≠ none) := by
  replace h := yields_fresh_bind.mp h
  obtain ⟨type, _, h₂, h⟩ := yields_bind.mp h
  obtain ⟨rfl, combined, known⟩ := h₂.operationType_eq strict
  replace h := yields_get_bind.mp h
  obtain ⟨rfl, rfl⟩ := yields_pure.mp h
  exact ⟨type, rfl, rfl, combined, known⟩

theorem Yields.binary_expresses {operator : Operator} {token : Token}
    (h : (Check.binary operator token lhs rhs).Yields env₁ n env')
    (expresses : env.Expresses tokens (before ++ lhs :: rhs :: after) env₁)
    (strict : env₁.collect = false) : env.Expresses tokens (before ++ n :: after) env' := by
  obtain ⟨type, rfl, rfl, combined, known⟩ := h.binary_eq strict
  rw [expresses.quiet.types] at combined known
  refine expresses.replace (.numbered env₁) (by simp) fun node mem => ?_
  rcases mem_append.mp mem with mem | mem
  · exact expresses.settled node (mem_append_left _ mem)
  · rcases mem_cons.mp mem with rfl | mem
    · exact settled_operator (expresses.settled lhs (by simp)) (expresses.settled rhs (by simp))
        combined known
    · exact expresses.settled node (by simp [mem])

theorem Yields.binary_reads {operator : Operator} {token : Token}
    (h : (Check.binary operator token lhs rhs).Yields env₁ n env') (arithmetic : operator.isArithmetic)
    (reads : env.Reads tokens (before ++ lhs :: rhs :: after) env₁) :
    env.Reads tokens (before ++ n :: after) env' := by
  have strict₁ (strict : env.collect = false) : env₁.collect = false :=
    reads.same.collect.trans strict
  refine ⟨reads.same.trans ((keeps_binary _ _ _ _).same h), fun strict =>
    h.binary_expresses (reads.expresses strict) (strict₁ strict), fun strict quoted => ?_⟩
  have builds := reads.builds strict quoted
  obtain ⟨type, rfl, rfl, _⟩ := h.binary_eq (strict₁ strict)
  exact Env.Builds.merge (by simpa using builds) (.operation arithmetic
    (builds.isExpression lhs (by simp)) (builds.isExpression rhs (by simp)))

theorem Yields.negated_reads {minus : Token} {operand : Node}
    (h : (Check.negated minus operand).Yields env₁ n env') (reads : env.Reads tokens [operand] env₁) :
    env.Reads tokens [n] env' := by
  have same := reads.same.trans ((keeps_negated _ _).same h)
  have strict₁ (strict : env.collect = false) : env₁.collect = false :=
    reads.same.collect.trans strict
  replace h := yields_fresh_bind.mp h
  obtain ⟨minusOne, env₂, h₂, h⟩ := yields_bind.mp h
  have one := (h₂.literalNode_builds (by simp) fun _ => by decide).1
  obtain ⟨quiet, id, line, label, rfl⟩ := h₂.literalNode_eq
  have quiet : env₁.Quiet env₂ := (Env.Quiet.numbered env₁).trans quiet
  obtain ⟨type, env₃, h₃, h⟩ := yields_bind.mp h
  replace h := yields_get_bind.mp h
  obtain ⟨rfl, rfl⟩ := yields_pure.mp h
  refine ⟨same, fun strict => ?_, fun strict quoted => ?_⟩
  · have expresses := reads.expresses strict
    obtain ⟨rfl, combined, known⟩ := h₃.operationType_eq (quiet.collect.trans (strict₁ strict))
    rw [(expresses.quiet.trans quiet).types] at combined known
    refine expresses.replace quiet (by simp) (forall_mem_singleton.mpr ?_)
    exact settled_operator (expresses.settled operand (by simp)) settled_literal combined known
  · have builds := reads.builds strict quoted
    obtain ⟨rfl, _⟩ := h₃.operationType_eq (quiet.collect.trans (strict₁ strict))
    have later := (Env.Grows.numbered env₁).trans one.grows
    exact ⟨builds.grows.trans later, forall_mem_singleton.mpr (.operation rfl
      ((builds.isExpression operand (by simp)).grow later) (one.isExpression _ (by simp)))⟩

/-- Only arithmetic operators join the operands of an expression. -/
def Tail.Arithmetic (tail : Tail) : Prop :=
  tail.1.isArithmetic

theorem Yields.joinFactors_reads {rest rest' : List Tail}
    (h : (Check.joinFactors lhs rest).Yields env₁ (n, rest') env')
    (arithmetic : ∀ tail ∈ rest, tail.Arithmetic)
    (reads : env.Reads tokens (before ++ lhs :: rest.map (·.2.2)) env₁) :
    env.Reads tokens (before ++ n :: rest'.map (·.2.2)) env' ∧ ∀ tail ∈ rest', tail.Arithmetic := by
  induction rest generalizing lhs env₁ n rest' before with
  | nil =>
    obtain ⟨eq, rfl⟩ := yields_pure.mp h
    cases eq
    exact ⟨reads, arithmetic⟩
  | cons tail rest ih =>
    obtain ⟨first, others⟩ := forall_mem_cons.mp arithmetic
    unfold Check.joinFactors at h
    split at h
    next =>
      obtain ⟨product, env₂, h₁, h⟩ := yields_bind.mp h
      exact ih h others (h₁.binary_reads first reads)
    next =>
      obtain ⟨⟨term, more⟩, env₂, h₁, h⟩ := yields_bind.mp h
      obtain ⟨eq, rfl⟩ := yields_pure.mp h
      cases eq
      have moved : env.Reads tokens ((before ++ [n]) ++ tail.2.2 :: rest.map (·.2.2)) env₁ := by
        simpa using reads
      obtain ⟨reads, others⟩ := ih h₁ others moved
      exact ⟨by simpa using reads, forall_mem_cons.mpr ⟨first, others⟩⟩

theorem Yields.joinTerms_reads {rest : List Tail} (h : (Check.joinTerms lhs rest).Yields env₁ n env')
    (arithmetic : ∀ tail ∈ rest, tail.Arithmetic)
    (reads : env.Reads tokens (lhs :: rest.map (·.2.2)) env₁) : env.Reads tokens [n] env' := by
  induction rest generalizing lhs env₁ with
  | nil =>
    obtain ⟨rfl, rfl⟩ := yields_pure.mp h
    exact reads
  | cons tail rest ih =>
    obtain ⟨first, others⟩ := forall_mem_cons.mp arithmetic
    obtain ⟨sum, env₂, h₁, h⟩ := yields_bind.mp h
    exact ih h others (@Yields.binary_reads _ _ _ _ _ _ [] _ _ _ _ h₁ first reads)

theorem Yields.join_reads {rest : List Tail} (h : (Check.join lhs rest).Yields env₁ n env')
    (arithmetic : ∀ tail ∈ rest, tail.Arithmetic)
    (reads : env.Reads tokens (lhs :: rest.map (·.2.2)) env₁) : env.Reads tokens [n] env' := by
  obtain ⟨⟨term, others⟩, env₂, h₁, h⟩ := yields_bind.mp h
  obtain ⟨reads, arithmetic⟩ := @Yields.joinFactors_reads _ _ _ _ _ [] _ _ _ h₁ arithmetic reads
  exact h.joinTerms_reads arithmetic reads

theorem settled_reference {types : Types} {id line number : Nat}
    (h : ∀ node ∈ nodes, node.Settled types) :
    Node.Settled types ⟨id, line, .reference number, nodes⟩ :=
  Node.settled_mk h (.other (by simp) (by simp) (by simp)) rfl rfl

theorem Yields.readVariable_reads {name : Token} (isName : name.kind = .identifier)
    (h : (Check.readVariable name nodes).Yields env₁ n env') (reads : env.Reads tokens nodes env₁) :
    env.Reads (name :: tokens) [n] env' ∧
      (env.collect = false → ∃ number, n.kind = .reference number) := by
  have same := reads.same.trans ((keeps_readVariable _ _).same h)
  have strict₁ (strict : env.collect = false) : env₁.collect = false :=
    reads.same.collect.trans strict
  replace h := yields_get_bind.mp h
  split at h
  next number found =>
    refine ⟨⟨same, fun strict => ?_, fun strict quoted => ?_⟩, fun strict => ?_⟩
    · have expresses := reads.expresses strict
      obtain ⟨rfl, rfl, _⟩ := h.reference_eq (strict₁ strict)
      rw [expresses.quiet.resolve?] at found
      refine ⟨expresses.quiet.trans (.numbered env₁), ?_, forall_mem_singleton.mpr
        (settled_reference expresses.settled)⟩
      have inside := expresses.mentions
      unfold Env.resolved at inside ⊢
      simp [namesIn_name isName, inside, found, Node.mentions_reference, expresses.quiet.line]
    · obtain ⟨mem, known⟩ := Parse.Env.resolve?_eq_some found
      have builds := reads.builds strict (forall_mem_cons.mp quoted).2
      exact h.reference_builds (strict₁ strict) mem known (by simpa using builds)
    · obtain ⟨rfl, _⟩ := h.reference_eq (strict₁ strict)
      exact ⟨number, rfl⟩
  next =>
    have ended (strict : env.collect = false) : False :=
      absurd h (not_yields_reportAt_bind (strict₁ strict))
    exact ⟨⟨same, fun strict => (ended strict).elim, fun strict => (ended strict).elim⟩,
      fun strict => (ended strict).elim⟩

end Nodes

end Check

/-- The first place of the stream is the second one with more tokens still to read. -/
def TokenStream.Takes (s : TokenStream) (used : List Token) (s' : TokenStream) : Prop :=
  s.rest = used ++ s'.rest

namespace Parse

section Phrases

variable {s s₁ s' : TokenStream} {env env₁ env' : Env} {used more : List Token} {n : Node}

theorem takes_nil : s.Takes [] s := rfl

theorem takes_cons {token : Token} (first : s.rest = token :: s₁.rest) (second : s₁.Takes used s') :
    s.Takes (token :: used) s' := by
  unfold TokenStream.Takes at *
  rw [first, second]
  rfl

theorem takes_append (first : s.Takes used s₁) (second : s₁.Takes more s') :
    s.Takes (used ++ more) s' := by
  unfold TokenStream.Takes at *
  rw [first, second, append_assoc]

/-- What holds of no items, and goes on through one more item, holds of a run of items. -/
theorem Yields.many_phrases {item : Parse (Option α)} {phrase : List Token → Prop}
    {P : Env → List Token → List α → Env → Prop} (nothing : ∀ env, P env [] [] env)
    (one : ∀ {s env found s' env'}, item.Yields s env found s' env' →
      found = none ∧ s = s' ∧ env = env' ∨ ∃ used a, found = some a ∧ s.Takes used s' ∧ phrase used ∧
        ∀ more as env'', P env' more as env'' → P env (used ++ more) (a :: as) env'')
    {as : List α} (run : (many item).Yields s env as s' env') :
    ∃ used, s.Takes used s' ∧ Grammar.Many phrase used ∧ P env used as env' := by
  have h := yields_get_bind.mp run
  clear run
  generalize s.rest.length = bound at h
  induction bound generalizing s env as with
  | zero =>
    obtain ⟨rfl, rfl, rfl⟩ := yields_pure.mp h
    exact ⟨[], takes_nil, .nil, nothing env⟩
  | succ bound ih =>
    obtain ⟨found, s₁, env₁, first, h⟩ := yields_bind.mp h
    obtain ⟨rfl, rfl, rfl⟩ | ⟨used, a, rfl, takes, isPhrase, step⟩ := one first
    · obtain ⟨rfl, rfl, rfl⟩ := yields_pure.mp h
      exact ⟨[], takes_nil, .nil, nothing env⟩
    · obtain ⟨rest, s₂, env₂, later, last⟩ := yields_bind.mp h
      obtain ⟨rfl, rfl, rfl⟩ := yields_pure.mp last
      obtain ⟨more, takes', isMany, holds⟩ := ih later
      exact ⟨used ++ more, takes_append takes takes', .cons isPhrase isMany, step _ _ _ holds⟩

theorem takes_concat {token : Token} (first : s.Takes used s₁) (second : s₁.rest = token :: s'.rest) :
    s.Takes (used ++ [token]) s' :=
  takes_append first (takes_cons second takes_nil)

/-- A parser that reads a phrase as an expression. -/
def Understands (parser : Parse Node) (phrase : List Token → Prop) : Prop :=
  ∀ {s env n s' env'}, parser.Yields s env n s' env' →
    ∃ used, s.Takes used s' ∧ phrase used ∧ env.Reads used [n] env'

variable {expression : Parse Node} {inner : List Token → Prop}

section

variable (understands : Understands expression inner)

include understands

theorem Yields.index_reads {found : Option Node}
    (h : (Parse.index expression).Yields s env found s' env') :
    found = none ∧ s = s' ∧ env = env' ∨ ∃ used index, found = some index ∧ s.Takes used s' ∧
      Grammar.Index inner used ∧ env.Reads used [index] env' := by
  obtain ⟨bracket, s₁, env₁, h₁, h⟩ := yields_bind.mp h
  obtain ⟨rfl, ⟨left, rfl, read, _, isLeft⟩ | ⟨rfl, rfl, _⟩⟩ := yields_accept?.mp h₁
  · obtain ⟨n, s₂, env₂, h₂, h⟩ := yields_bind.mp h
    obtain ⟨used, takes, isInner, reads⟩ := understands h₂
    obtain ⟨right, s₃, read', _, isRight, h⟩ := yields_expect_bind.mp h
    obtain ⟨_, env₄, check, h⟩ := yields_lift_bind.mp h
    obtain ⟨rfl, rfl, rfl⟩ := yields_pure.mp h
    refine .inr ⟨left :: (used ++ [right]), n, rfl, takes_cons read (takes_concat takes read'),
      .mk isLeft isInner isRight, ?_⟩
    have all : env.Reads (left :: (used ++ [right])) [n] env₂ :=
      (reads.skip_concat (by simp [isRight])).skip_cons (by simp [isLeft])
    refine ⟨all.same.trans ((Check.keeps_checkIndex _ _).same check), fun strict => ?_,
      fun strict quoted => ?_⟩
    · obtain rfl := check.checkIndex (all.same.collect.trans strict)
      exact all.expresses strict
    · obtain rfl := check.checkIndex (all.same.collect.trans strict)
      exact all.builds strict quoted
  · obtain ⟨rfl, rfl, rfl⟩ := yields_pure.mp h
    exact .inl ⟨rfl, rfl, rfl⟩

theorem Yields.indices_reads {found : List Node}
    (h : (Parse.indices expression).Yields s env found s' env') :
    ∃ used, s.Takes used s' ∧ Grammar.Many (Grammar.Index inner) used ∧ env.Reads used found env' := by
  refine Yields.many_phrases .nil (fun h => ?_) h
  obtain none | ⟨used, index, found, takes, isIndex, reads⟩ := h.index_reads understands
  · exact .inl none
  · exact .inr ⟨used, index, found, takes, isIndex, fun _ _ _ more => reads.append more⟩

theorem Yields.variableRead_reads {name : Token}
    (isName : name.kind = .identifier) (h : (Parse.variableRead expression name).Yields s env n s' env') :
    ∃ used, s.Takes used s' ∧ Grammar.Reference inner (name :: used) ∧
      env.Reads (name :: used) [n] env' ∧
      (env.collect = false → ∃ number, n.kind = .reference number) := by
  obtain ⟨nodes, s₁, env₁, h₁, h⟩ := yields_bind.mp h
  obtain ⟨used, takes, isMany, reads⟩ := h₁.indices_reads understands
  obtain ⟨check, rfl⟩ := yields_lift.mp h
  exact ⟨used, takes, .mk isName isMany, check.readVariable_reads isName reads⟩

theorem Yields.parenthesized_reads {left : Token} (isLeft : left.kind = .separator .leftParen)
    (h : (Parse.parenthesized expression).Yields s env n s' env') :
    ∃ used, s.Takes used s' ∧ Grammar.Parenthesized inner (left :: used) ∧
      env.Reads (left :: used) [n] env' := by
  obtain ⟨m, s₁, env₁, h₁, h⟩ := yields_bind.mp h
  obtain ⟨used, takes, isInner, reads⟩ := understands h₁
  obtain ⟨right, s₂, read, _, isRight, h⟩ := yields_expect_bind.mp h
  obtain ⟨rfl, rfl, rfl⟩ := yields_pure.mp h
  exact ⟨used ++ [right], takes_concat takes read, .mk isLeft isInner isRight,
    (reads.skip_concat (by simp [isRight])).skip_cons (by simp [isLeft])⟩

theorem Yields.negation_reads {minus : Token}
    (isMinus : minus.kind = .operator .minus) (h : (Parse.negation expression minus).Yields s env n s' env') :
    ∃ used, s.Takes used s' ∧ Grammar.Operand inner (minus :: used) ∧ env.Reads (minus :: used) [n] env' := by
  have other : minus.kind ≠ .identifier := by simp [isMinus]
  obtain ⟨token, s₁, read, _, h⟩ := yields_advance_bind.mp h
  have number {kind : LiteralKind} (isNumber : token.kind = .literal kind) (notText : kind ≠ .text)
      (h : (liftM (Check.literal token kind true) : Parse Node).Yields s₁ env n s' env') :
      ∃ used, s.Takes used s' ∧ Grammar.Operand inner (minus :: used) ∧
        env.Reads (minus :: used) [n] env' := by
    obtain ⟨check, rfl⟩ := yields_lift.mp h
    refine ⟨[token], takes_cons read takes_nil, .negativeLiteral isMinus isNumber notText, ?_⟩
    refine check.literal_reads ?_ fun _ isText => absurd isText notText
    rw [namesIn_other other, namesIn_other (by simp [isNumber]), namesIn_nil]
  split at h
  next isNumber => exact number isNumber (by decide) h
  next isNumber => exact number isNumber (by decide) h
  next isName =>
    obtain ⟨operand, s₂, env₂, h₂, h⟩ := yields_bind.mp h
    obtain ⟨used, takes, isReference, reads, _⟩ := h₂.variableRead_reads understands isName
    obtain ⟨check, rfl⟩ := yields_lift.mp h
    exact ⟨token :: used, takes_cons read takes, .negatedReference isMinus isReference,
      check.negated_reads (reads.skip_cons other)⟩
  next isParen =>
    obtain ⟨operand, s₂, env₂, h₂, h⟩ := yields_bind.mp h
    obtain ⟨used, takes, isParenthesized, reads⟩ := h₂.parenthesized_reads understands isParen
    obtain ⟨check, rfl⟩ := yields_lift.mp h
    exact ⟨token :: used, takes_cons read takes, .negatedParenthesized isMinus isParenthesized,
      check.negated_reads (reads.skip_cons other)⟩
  next => exact absurd h not_yields_failAt

theorem understands_operand :
    Understands (operand expression) (Grammar.Operand inner) := by
  intro s env n s' env' h
  obtain ⟨token, s₁, read, _, h⟩ := yields_advance_bind.mp h
  split at h
  next isMinus =>
    obtain ⟨used, takes, isOperand, reads⟩ := h.negation_reads understands isMinus
    exact ⟨token :: used, takes_cons read takes, isOperand, reads⟩
  next isParen =>
    obtain ⟨used, takes, isParenthesized, reads⟩ := h.parenthesized_reads understands isParen
    exact ⟨token :: used, takes_cons read takes, .parenthesized isParenthesized, reads⟩
  next isName =>
    obtain ⟨used, takes, isReference, reads, _⟩ := h.variableRead_reads understands isName
    exact ⟨token :: used, takes_cons read takes, .reference isReference, reads⟩
  next kind isLiteral =>
    obtain ⟨check, rfl⟩ := yields_lift.mp h
    refine ⟨[token], takes_cons read takes_nil, .literal isLiteral, check.literal_reads ?_ ?_⟩
    · rw [namesIn_other (by simp [isLiteral]), namesIn_nil]
    · exact fun quoted isText => ⟨rfl, quoted token (mem_cons_self ..) (isText ▸ isLiteral)⟩
  next => exact absurd h not_yields_failAt

theorem Yields.tail_reads {found : Option Check.Tail}
    (h : (Parse.tail expression).Yields s env found s' env') :
    found = none ∧ s = s' ∧ env = env' ∨ ∃ used tail, found = some tail ∧ s.Takes used s' ∧
      Grammar.Tail inner used ∧ tail.Arithmetic ∧ env.Reads used [tail.2.2] env' := by
  replace h := yields_peekKind?_bind.mp h
  split at h
  next operator isOperator =>
    split at h
    next arithmetic =>
      obtain ⟨token, s₂, read, _, h⟩ := yields_advance_bind.mp h
      have isOperator : token.kind = .operator operator := by
        simpa [TokenStream.peekKind?, TokenStream.peek?, read] using isOperator
      obtain ⟨rhs, s₃, env₃, h₃, h⟩ := yields_bind.mp h
      obtain ⟨used, takes, isOperand, reads⟩ := understands_operand understands h₃
      obtain ⟨rfl, rfl, rfl⟩ := yields_pure.mp h
      exact .inr ⟨token :: used, _, rfl, takes_cons read takes, .mk isOperator arithmetic isOperand,
        arithmetic, reads.skip_cons (by simp [isOperator])⟩
    next =>
      obtain ⟨rfl, rfl, rfl⟩ := yields_pure.mp h
      exact .inl ⟨rfl, rfl, rfl⟩
  next =>
    obtain ⟨rfl, rfl, rfl⟩ := yields_pure.mp h
    exact .inl ⟨rfl, rfl, rfl⟩

theorem Yields.tails_reads {found : List Check.Tail}
    (h : (many (Parse.tail expression)).Yields s env found s' env') :
    ∃ used, s.Takes used s' ∧ Grammar.Many (Grammar.Tail inner) used ∧
      (∀ tail ∈ found, tail.Arithmetic) ∧ env.Reads used (found.map (·.2.2)) env' := by
  refine Yields.many_phrases (P := fun env used found env' => (∀ tail ∈ found, tail.Arithmetic) ∧
    env.Reads used (found.map (·.2.2)) env') (fun env => ⟨by simp, .nil env⟩) (fun h => ?_) h
  obtain none | ⟨used, tail, found, takes, isTail, arithmetic, reads⟩ := h.tail_reads understands
  · exact .inl none
  · refine .inr ⟨used, tail, found, takes, isTail, fun _ _ _ more => ?_⟩
    exact ⟨forall_mem_cons.mpr ⟨arithmetic, more.1⟩, reads.append more.2⟩

end

theorem understands_expressionWithin (depth : Nat) :
    Understands (expressionWithin depth) Grammar.Expression := by
  induction depth with
  | zero => exact fun h => absurd h not_yields_failHere
  | succ depth ih =>
    intro s env n s' env' h
    obtain ⟨first, s₁, env₁, h₁, h⟩ := yields_bind.mp h
    obtain ⟨used, takes, isOperand, reads⟩ := understands_operand ih h₁
    obtain ⟨rest, s₂, env₂, h₂, h⟩ := yields_bind.mp h
    obtain ⟨others, takes', isMany, arithmetic, reads'⟩ := h₂.tails_reads ih
    obtain ⟨check, rfl⟩ := yields_lift.mp h
    exact ⟨used ++ others, takes_append takes takes', .mk isOperand isMany,
      check.join_reads arithmetic (reads.append reads')⟩

end Phrases

theorem understands_expression : Understands expression Grammar.Expression := by
  intro s env n s' env' h
  replace h := yields_get_bind.mp h
  exact understands_expressionWithin _ h

end Parse

end LineBasic
