import LineBasic.Proofs.Parse.Yields
import LineBasic.Proofs.Token.Renumber
import LineBasic.Proofs.Tree.Renumber
import Mathlib.Data.List.Forall2

/-!
Runs of the parser side by side, on tokens that are alike and on lines that may have other numbers.
-/

namespace LineBasic

open List

open Parse (Env Block OpenBlock Opening)

variable {α β : Type} {ρ : Nat → Nat}

/-- The faults of a jump, which are found once all lines are known. -/
def SemanticFault.isJump : SemanticFault → Bool
  | .targetNested _ | .targetNotExecutable _ | .targetMissing _ => true
  | _ => false

/-- Tokens of the same kind and text. -/
structure Token.Alike (token token' : Token) : Prop where
  kind : token'.kind = token.kind
  text : token'.text = token.text

/-- The second value is the image of the first. -/
abbrev Maps (f : α → β) (a : α) (b : β) : Prop :=
  b = f a

theorem map_eq_of_forall₂ {γ : Type} {R : α → β → Prop} {f : α → γ} {g : β → γ} {as : List α}
    {bs : List β} (h : Forall₂ R as bs) (same : ∀ a b, R a b → f a = g b) :
    as.map f = bs.map g := by
  induction h with
  | nil => rfl
  | cons related _ ih => rw [map_cons, map_cons, same _ _ related, ih]

theorem eq_map_of_forall₂ {f : α → β} {as : List α} {bs : List β} (h : Forall₂ (Maps f) as bs) :
    bs = as.map f := by
  rw [map_eq_of_forall₂ h fun _ _ eq => Eq.symm eq, map_id']

theorem exists_of_mem_forall₂ {R : α → β → Prop} {as : List α} {bs : List β} {b : β}
    (h : Forall₂ R as bs) (mem : b ∈ bs) : ∃ a ∈ as, R a b := by
  induction h with
  | nil => cases mem
  | cons related _ ih =>
    rcases mem_cons.mp mem with rfl | mem
    · exact ⟨_, .head _, related⟩
    · obtain ⟨a, mem, related⟩ := ih mem
      exact ⟨a, .tail _ mem, related⟩

namespace Parse

/-- A block with its statements renumbered, on a line of its own. -/
def Block.renumber (ρ : Nat → Nat) (line : Nat) (block : Block) : Block :=
  { block with line, statements := block.statements.map (Node.renumber ρ) }

def Opening.renumber (ρ : Nat → Nat) : Opening → Opening
  | loop id line start limit step =>
    loop id (ρ line) (start.renumber ρ) (limit.renumber ρ) (step.renumber ρ)
  | branch id line condition => branch id (ρ line) (condition.renumber ρ)
  | otherwise id line condition consequence =>
    otherwise id (ρ line) (condition.renumber ρ) (consequence.renumber ρ)

def OpenBlock.renumber (ρ : Nat → Nat) (opened : OpenBlock) : OpenBlock :=
  ⟨opened.opening.renumber ρ, opened.block.renumber ρ (ρ opened.block.line)⟩

theorem Block.node_renumber (block : Block) :
    (block.renumber ρ (ρ block.line)).node = block.node.renumber ρ := by
  rw [Block.node, Block.node, Node.renumber_mk, Block.renumber, Array.toList_map]
  rfl

theorem Opening.close_renumber (opening : Opening) (node : Node) :
    (opening.renumber ρ).close (node.renumber ρ) = (opening.close node).renumber ρ := by
  cases opening <;> rw [close, Node.renumber_mk] <;> rfl

theorem Block.renumber_self (same : ∀ n, ρ n = n) (block : Block) :
    block.renumber ρ block.line = block := by
  rw [renumber, funext (Node.renumber_self same)]
  simp

theorem OpenBlock.renumber_self (same : ∀ n, ρ n = n) (opened : OpenBlock) :
    opened.renumber ρ = opened := by
  obtain ⟨opening, block⟩ := opened
  rw [renumber, same, Block.renumber_self same]
  cases opening <;> simp only [Opening.renumber, Node.renumber_self same, same]

/-- States between two statements, the second one with renumbered lines. -/
structure Env.Near (ρ : Nat → Nat) (env env' : Env) : Prop where
  size : env'.size = env.size
  symbols : env'.symbols = env.symbols
  strings : env'.strings = env.strings
  program : env'.program = env.program.renumber ρ env.program.line
  blocks : env'.blocks = env.blocks.map (OpenBlock.renumber ρ)
  lines : env'.lines = env.lines.map (Prod.map ρ id)

/-- States in the course of a statement, the second one with renumbered lines. -/
structure Env.Like (ρ : Nat → Nat) (env env' : Env) : Prop extends env.Near ρ env' where
  line : env'.line = ρ env.line

/-- Nothing is reported, and the line stays the same. -/
structure Env.Calm (env env' : Env) : Prop where
  collect : env'.collect = env.collect
  errors : env'.errors = env.errors
  line : env'.line = env.line
  jumps : env'.jumps = env.jumps
  numbers : env'.lines.map Prod.fst = env.lines.map Prod.fst

/-- Nothing is reported, and no line or block begins or ends. -/
structure Env.Plain (env env' : Env) : Prop extends env.Calm env' where
  openings : env'.blocks.map OpenBlock.opening = env.blocks.map OpenBlock.opening

theorem Env.Plain.trans {env₁ env₂ env₃ : Env} (first : env₁.Plain env₂) (second : env₂.Plain env₃) :
    env₁.Plain env₃ :=
  ⟨⟨second.collect.trans first.collect, second.errors.trans first.errors,
    second.line.trans first.line, second.jumps.trans first.jumps,
    second.numbers.trans first.numbers⟩, second.openings.trans first.openings⟩

theorem Env.Plain.updateCurrent (env : Env) (f : Block → Block) : env.Plain (env.updateCurrent f) := by
  unfold Env.updateCurrent
  cases blocks : env.blocks with
  | nil => exact ⟨⟨rfl, rfl, rfl, rfl, rfl⟩, by rw [blocks]⟩
  | cons innermost outer => exact ⟨⟨rfl, rfl, rfl, rfl, rfl⟩, by rw [blocks]; rfl⟩

theorem Env.Plain.markLine (env : Env) : env.Plain env.markLine := by
  refine ⟨⟨rfl, rfl, rfl, rfl, ?_⟩, rfl⟩
  rw [Env.markLine, map_map]
  refine map_congr_left fun entry _ => ?_
  dsimp only [Function.comp_apply]
  split <;> rfl

namespace Env.Near

variable {env env' : Env}

section

variable (near : env.Near ρ env')

include near

theorem current :
    ∃ line, env'.current = env.current.renumber ρ line := by
  unfold Env.current
  rw [near.blocks]
  cases env.blocks with
  | nil => exact ⟨_, near.program⟩
  | cons innermost outer => exact ⟨_, rfl⟩

theorem current_id : env'.current.id = env.current.id := by
  obtain ⟨line, eq⟩ := near.current
  rw [eq]
  rfl

theorem updateCurrent {f g : Block → Block} (line : ∀ block, (f block).line = block.line)
    (same : ∀ block line, g (block.renumber ρ line) = (f block).renumber ρ line) :
    (env.updateCurrent f).Near ρ (env'.updateCurrent g) := by
  unfold Env.updateCurrent
  rw [near.blocks]
  cases blocks : env.blocks with
  | nil =>
    refine { near with program := ?_, blocks := rfl }
    show g env'.program = (f env.program).renumber ρ (f env.program).line
    rw [near.program, same, line]
  | cons innermost outer =>
    refine { near with blocks := ?_ }
    show _ :: _ = _ :: _
    dsimp only [OpenBlock.renumber]
    rw [same, line]

theorem lookup? (block : Block) (line : Nat) (name : String) :
    env'.lookup? (block.renumber ρ line) name = env.lookup? block name := by
  rw [Env.lookup?, Env.lookup?, near.symbols]
  rfl

theorem resolve? (name : String) :
    env'.resolve? name = env.resolve? name := by
  rw [Env.resolve?, Env.resolve?, Env.scopes, Env.scopes, near.blocks, near.program,
    findSome?_append, findSome?_append, map_map, findSome?_map,
    findSome?_map]
  have inner : ((fun block => env'.lookup? block name) ∘ OpenBlock.block ∘ OpenBlock.renumber ρ) =
      (fun block => env.lookup? block name) ∘ OpenBlock.block :=
    funext fun opened => near.lookup? opened.block _ name
  rw [inner]
  simp only [findSome?_cons, findSome?_nil, near.lookup?]

theorem type? (node : Node) :
    env'.type? (node.renumber ρ) = env.type? node := by
  rw [Env.type?, Env.type?, near.symbols, Node.kind_renumber, NodeKind.type?_renumber]

theorem scopes :
    env'.scopes.map Block.id = env.scopes.map Block.id := by
  rw [Env.scopes, Env.scopes, near.blocks, near.program, map_append, map_append,
    map_map, map_map, map_map]
  rfl

end

end Env.Near

namespace Env.Like

variable {env env' : Env}

theorem refl (env : Env) : env.Like id env where
  size := rfl
  symbols := rfl
  strings := rfl
  program := (env.program.renumber_self fun _ => rfl).symm
  blocks := (map_id'' (OpenBlock.renumber_self fun _ => rfl) _).symm
  lines := by rw [Prod.map_id, map_id]
  line := rfl

theorem updateCurrent (like : env.Like ρ env') {f g : Block → Block}
    (line : ∀ block, (f block).line = block.line)
    (same : ∀ block line, g (block.renumber ρ line) = (f block).renumber ρ line) :
    (env.updateCurrent f).Like ρ (env'.updateCurrent g) := by
  refine ⟨like.toNear.updateCurrent line same, ?_⟩
  rw [(Plain.updateCurrent env f).line, (Plain.updateCurrent env' g).line, like.line]

theorem markLine (like : env.Like ρ env') (injective : Function.Injective ρ) :
    env.markLine.Like ρ env'.markLine := by
  refine { like with lines := ?_ }
  dsimp only [Env.markLine]
  rw [like.lines, map_map, map_map]
  refine map_congr_left fun entry _ => ?_
  dsimp only [Function.comp_apply, Prod.map]
  rw [like.line, like.current_id]
  simp only [injective.eq_iff]
  split <;> rfl

end Env.Like

end Parse

/-- A relation between the runs of two checks and their results that is kept by the steps of checks.
`T` says which tokens the two runs see in the same place. -/
structure Check.Along (ρ : Nat → Nat) (T : Token → Token → Prop)
    (P : ∀ ⦃α : Type⦄, (α → α → Prop) → Check α → Check α → Prop) : Prop where
  injective : Function.Injective ρ
  alike : ∀ {token token' : Token}, T token token' → token.Alike token'
  done : ∀ {α : Type} {R : α → α → Prop} {a b : α}, R a b → P R (pure a) (pure b)
  chain : ∀ {α β : Type} {R : α → α → Prop} {R' : β → β → Prop} {check check' : Check α}
    {next next' : α → Check β}, P R check check' → (∀ a b, R a b → P R' (next a) (next' b)) →
      P R' (check >>= next) (check' >>= next')
  read : ∀ {β : Type} {R' : β → β → Prop} {next next' : Env → Check β},
    (∀ env env', env.Like ρ env' → P R' (next env) (next' env')) → P R' (get >>= next) (get >>= next')
  update : ∀ {α : Type} {f g : Env → α × Env},
    (∀ env env', env.Like ρ env' → (f env).1 = (g env').1 ∧ (f env).2.Like ρ (g env').2) →
      (∀ env : Env, env.Plain (f env).2) → (∀ env : Env, env.Plain (g env).2) →
        P Eq (modifyGet f) (modifyGet g)
  report : ∀ {token token' : Token} {fault : SemanticFault}, T token token' → fault.isJump = false →
    P Eq (reportAt token fault) (reportAt token' fault)

namespace Check

variable {T : Token → Token → Prop} {P : ∀ ⦃α : Type⦄, (α → α → Prop) → Check α → Check α → Prop}
  {R : α → α → Prop} {R' : β → β → Prop} {check check' : Check α} {next next' : α → Check β}
  {name name' token token' : Token} (w : Along ρ T P)

theorem Along.into (w : Along ρ T P) {f : α → α} (first : P (Maps f) check check')
    (then_ : ∀ a, P R' (next a) (next' (f a))) : P R' (check >>= next) (check' >>= next') :=
  w.chain first fun a _ eq => eq ▸ then_ a

theorem Along.same (w : Along ρ T P) (first : P Eq check check')
    (then_ : ∀ a, P R' (next a) (next' a)) : P R' (check >>= next) (check' >>= next') :=
  w.chain first fun a _ eq => eq ▸ then_ a

theorem Along.never (w : Along ρ T P) (first : P (fun _ _ => False) check check') :
    P R' (check >>= next) (check' >>= next') :=
  w.chain first fun _ _ never => never.elim

theorem Along.imp (w : Along ρ T P) {R' : α → α → Prop} (h : P R check check')
    (weaker : ∀ a b, R a b → R' a b) : P R' check check' := by
  rw [← bind_pure check, ← bind_pure check']
  exact w.chain h fun a b related => w.done (weaker a b related)

theorem Along.ite (_ : Along ρ T P) {p : Prop} [Decidable p] {yes no yes' no' : Check α}
    (then_ : p → P R yes yes') (else_ : ¬ p → P R no no') :
    P R (if p then yes else no) (if p then yes' else no') := by
  by_cases holds : p
  · simpa only [if_pos holds] using then_ holds
  · simpa only [if_neg holds] using else_ holds

theorem Along.modify (w : Along ρ T P) {f g : Env → Env}
    (like : ∀ env env', env.Like ρ env' → (f env).Like ρ (g env')) (plain : ∀ env : Env, env.Plain (f env))
    (plain' : ∀ env : Env, env.Plain (g env)) : P Eq (modify f) (modify g) :=
  w.update (fun env env' h => ⟨rfl, like env env' h⟩) plain plain'

include w

theorem along_record (event event' : Event) : P Eq (record event) (record event') :=
  w.modify (fun _ _ like => { like with }) (fun _ => ⟨⟨rfl, rfl, rfl, rfl, rfl⟩, rfl⟩)
    fun _ => ⟨⟨rfl, rfl, rfl, rfl, rfl⟩, rfl⟩

theorem along_fresh : P Eq fresh fresh := by
  refine w.update (fun env env' like => ⟨like.size.symm, { like with size := ?_ }⟩)
    (fun _ => ⟨⟨rfl, rfl, rfl, rfl, rfl⟩, rfl⟩) fun _ => ⟨⟨rfl, rfl, rfl, rfl, rfl⟩, rfl⟩
  dsimp only
  rw [like.size]

theorem along_node (kind : NodeKind) (children : List Node) : P (Maps (Node.renumber ρ))
    (node kind children) (node (kind.renumber ρ) (children.map (Node.renumber ρ))) := by
  refine w.same (along_fresh w) fun id => w.read fun env env' like => w.done ?_
  rw [like.line, Maps, Node.renumber_mk]

theorem along_declare (text : String) (dims : List Nat) :
    P Eq (declare text dims) (declare text dims) := by
  have plain (env : Env) : env.Plain ((env.updateCurrent fun block =>
      { block with vars := block.vars ++ [env.symbols.size] })) := .updateCurrent env _
  refine w.update (fun env env' like => ⟨congrArg Array.size like.symbols.symm, ?_⟩)
    (fun env => (plain env).trans ⟨⟨rfl, rfl, rfl, rfl, rfl⟩, rfl⟩)
    fun env => (plain env).trans ⟨⟨rfl, rfl, rfl, rfl, rfl⟩, rfl⟩
  have updated := like.updateCurrent
    (f := fun block => { block with vars := block.vars ++ [env.symbols.size] })
    (g := fun block => { block with vars := block.vars ++ [env.symbols.size] })
    (fun _ => rfl) fun _ _ => rfl
  dsimp only
  rw [like.symbols]
  refine { updated with symbols := ?_ }
  dsimp only
  rw [updated.symbols, updated.current_id]

theorem along_setType (number : Nat) (type : Option ValueType) :
    P Eq (setType number type) (setType number type) := by
  refine w.modify (fun env env' like => { like with symbols := ?_ })
    (fun _ => ⟨⟨rfl, rfl, rfl, rfl, rfl⟩, rfl⟩) fun _ => ⟨⟨rfl, rfl, rfl, rfl, rfl⟩, rfl⟩
  dsimp only
  rw [like.symbols]

theorem along_append (statement : Node) :
    P Eq (append statement) (append (statement.renumber ρ)) := by
  refine w.modify (fun env env' like => like.updateCurrent (fun _ => rfl) fun block line => ?_)
    (fun env => .updateCurrent env _) fun env => .updateCurrent env _
  rw [Block.renumber, Block.renumber, Array.map_push]

theorem along_markLine : P Eq (modify Env.markLine) (modify Env.markLine) :=
  w.modify (fun _ _ like => like.markLine w.injective) .markLine .markLine

theorem along_attach (statement : Node) :
    P Eq (attach statement) (attach (statement.renumber ρ)) :=
  w.same (along_append w statement) fun _ => along_markLine w

theorem along_attach_mk {env env' : Env} (like : env.Like ρ env') (id : Nat) (kind : NodeKind)
    (children : List Node) : P Eq (attach ⟨id, env.line, kind, children⟩)
      (attach ⟨id, env'.line, kind.renumber ρ, children.map (Node.renumber ρ)⟩) := by
  rw [like.line, ← Node.renumber_mk]
  exact along_attach w _

theorem along_literalNode (text : String) (type : ValueType) :
    P (Maps (Node.renumber ρ)) (literalNode text type) (literalNode text type) := by
  refine w.ite (fun _ => w.read fun env env' like => ?_) fun _ => along_node w _ _
  rw [like.strings]
  refine w.same (w.modify (fun env env' like => { like with strings := ?_ })
    (fun _ => ⟨⟨rfl, rfl, rfl, rfl, rfl⟩, rfl⟩) fun _ => ⟨⟨rfl, rfl, rfl, rfl, rfl⟩, rfl⟩)
    fun _ => along_node w _ _
  dsimp only
  rw [like.strings]

theorem along_literal (h : T token token') (kind : LiteralKind) (negative : Bool) :
    P (Maps (Node.renumber ρ)) (literal token kind negative) (literal token' kind negative) := by
  unfold literal
  rw [(w.alike h).text]
  exact w.ite (fun _ => w.same (w.report h rfl) fun _ => along_literalNode w _ _)
    fun _ => along_literalNode w _ _

theorem along_operationType (h : T token token') (lhs rhs : Node) : P Eq (operationType token lhs rhs)
    (operationType token' (lhs.renumber ρ) (rhs.renumber ρ)) := by
  refine w.read fun env env' like => ?_
  rw [like.type?, like.type?, (w.alike h).text]
  split
  next =>
    split
    next => exact w.done rfl
    next => exact w.same (w.report h rfl) fun _ => w.done rfl
  next => exact w.done rfl
  next => exact w.done rfl
  next => exact w.done rfl

theorem along_binary (operator : Operator) (h : T token token') (lhs rhs : Node) :
    P (Maps (Node.renumber ρ)) (binary operator token lhs rhs)
      (binary operator token' (lhs.renumber ρ) (rhs.renumber ρ)) := by
  refine w.same (along_fresh w) fun id => w.same (along_operationType w h lhs rhs) fun type => ?_
  refine w.read fun env env' like => w.done ?_
  rw [like.line, Maps, Node.renumber_mk]
  rfl

theorem along_negated (h : T token token') (operand : Node) : P (Maps (Node.renumber ρ))
    (negated token operand) (negated token' (operand.renumber ρ)) := by
  refine w.same (along_fresh w) fun id => w.into (along_literalNode w _ _) fun minusOne => ?_
  refine w.same (along_operationType w h operand minusOne) fun type => ?_
  refine w.read fun env env' like => w.done ?_
  rw [like.line, Maps, Node.renumber_mk]
  rfl

omit w in
/-- The same operators with operands that differ in the numbers of lines. -/
inductive Tail.Alike (ρ : Nat → Nat) (T : Token → Token → Prop) : Tail → Tail → Prop
  | intro {operator : Operator} {token token' : Token} {right : Node} : T token token' →
      Alike ρ T (operator, token, right) (operator, token', right.renumber ρ)

theorem along_joinFactors (left : Node) {tail tail' : List Tail}
    (alike : Forall₂ (Tail.Alike ρ T) tail tail') :
    P (fun joined joined' => joined'.1 = joined.1.renumber ρ ∧
        Forall₂ (Tail.Alike ρ T) joined.2 joined'.2)
      (joinFactors left tail) (joinFactors (left.renumber ρ) tail') := by
  induction alike generalizing left with
  | nil => exact w.done ⟨rfl, .nil⟩
  | cons same _ ih =>
    obtain ⟨h⟩ := same
    refine w.ite (fun _ => w.into (along_binary w _ h left _) fun joined => ih joined) fun _ => ?_
    refine w.chain (ih _) fun joined joined' related => w.done ⟨rfl, .cons ?_ related.2⟩
    rw [related.1]
    exact .intro h

theorem along_joinTerms (left : Node) {tail tail' : List Tail}
    (alike : Forall₂ (Tail.Alike ρ T) tail tail') :
    P (Maps (Node.renumber ρ)) (joinTerms left tail) (joinTerms (left.renumber ρ) tail') := by
  induction alike generalizing left with
  | nil => exact w.done rfl
  | cons same _ ih =>
    obtain ⟨h⟩ := same
    exact w.into (along_binary w _ h left _) fun joined => ih joined

theorem along_join (first : Node) {rest rest' : List Tail}
    (alike : Forall₂ (Tail.Alike ρ T) rest rest') :
    P (Maps (Node.renumber ρ)) (join first rest) (join (first.renumber ρ) rest') := by
  refine w.chain (along_joinFactors w first alike) fun joined joined' related => ?_
  dsimp only
  rw [related.1]
  exact along_joinTerms w _ related.2

theorem along_checkIndex (h : T token token') (index : Node) :
    P Eq (checkIndex token index) (checkIndex token' (index.renumber ρ)) := by
  refine w.read fun env env' like => ?_
  rw [like.type?]
  split
  next => exact w.report h rfl
  next => exact w.report h rfl
  next => exact w.done rfl

theorem along_reference (number : Nat) (h : T name name') (indices : List Node) :
    P (Maps (Node.renumber ρ)) (reference number name indices)
      (reference number name' (indices.map (Node.renumber ρ))) := by
  refine w.read fun env env' like => ?_
  rw [like.symbols, length_map, (w.alike h).text]
  exact w.ite (fun _ => w.same (w.report h rfl) fun _ => along_node w _ _) fun _ => along_node w _ _

theorem along_readVariable (h : T name name') (indices : List Node) :
    P (Maps (Node.renumber ρ)) (readVariable name indices)
      (readVariable name' (indices.map (Node.renumber ρ))) := by
  refine w.read fun env env' like => ?_
  rw [(w.alike h).text, like.resolve?, length_map]
  split
  next => exact along_reference w _ h _
  next =>
    exact w.same (w.report h rfl) fun _ => w.same (along_declare w _ _) fun _ => along_reference w _ h _

theorem along_writtenVariable (h : T name name') (indices : List Node) :
    P (Maps (Node.renumber ρ)) (writtenVariable name indices)
      (writtenVariable name' (indices.map (Node.renumber ρ))) := by
  refine w.read fun env env' like => ?_
  rw [(w.alike h).text, like.resolve?]
  split
  next => exact along_reference w _ h _
  next =>
    refine w.same (along_declare w _ _) fun number => w.read fun env env' like => ?_
    exact w.same (along_record w _ _) fun _ => along_reference w _ h _

theorem along_assignment (h : T name name') (target value : Node) : P (Maps (Node.renumber ρ))
    (assignment name target value)
    (assignment name' (target.renumber ρ) (value.renumber ρ)) := by
  have finish : P (Maps (Node.renumber ρ)) (node .assign [target, value])
    (node .assign [target.renumber ρ, value.renumber ρ]) := along_node w _ _
  unfold assignment
  rw [Node.kind_renumber, (w.alike h).text]
  cases target.kind with
  | reference number =>
    refine w.read fun env env' like => ?_
    rw [like.type?, like.type?]
    split
    next => exact w.same (along_setType w _ _) fun _ => finish
    next => exact w.ite (fun _ => w.same (w.report h rfl) fun _ => finish) fun _ => finish
    next => exact finish
  | _ => exact finish

theorem along_mapM {f g : α → Check β} {h : β → β} (each : ∀ a, P (Maps h) (f a) (g a))
    (as : List α) : P (Maps (List.map h)) (as.mapM f) (as.mapM g) := by
  induction as with
  | nil => exact w.done rfl
  | cons a as ih =>
    rw [mapM_cons, mapM_cons]
    exact w.into (each a) fun b => w.into ih fun bs => w.done rfl

theorem along_element (number : Nat) (here : T name name') (index : List Nat) (h : T token token')
    (kind : LiteralKind) (negative : Bool) : P Eq (element number name index token kind negative)
    (element number name' index token' kind negative) := by
  refine w.into (along_literal w h _ _) fun value => w.read fun env env' like => ?_
  rw [like.symbols, (w.alike here).text]
  refine w.ite (fun _ => w.report h rfl) fun _ => w.same (along_fresh w) fun id => ?_
  refine w.into (along_mapM w (fun i => along_literalNode w _ _) index) fun indices => ?_
  refine w.read fun env env' like => ?_
  have target : (⟨id, env'.line, .reference number, indices.map (Node.renumber ρ)⟩ : Node) =
      Node.renumber ρ ⟨id, env.line, .reference number, indices⟩ := by
    rw [Node.renumber_mk, like.line]
    rfl
  rw [target]
  exact w.into (along_assignment w here _ value) fun assigned => along_attach w assigned

end Check

/-- A relation between runs that parsers keep as well. `S` says from which places of the streams; it
need not hold behind a token that announces the number of a line. -/
structure Parse.Along (ρ : Nat → Nat) (T : Token → Token → Prop)
    (P : ∀ ⦃α : Type⦄, (α → α → Prop) → Check α → Check α → Prop)
    (S : TokenStream → TokenStream → Prop) : Prop extends Check.Along ρ T P where
  next : ∀ {s s' : TokenStream}, S s s' → (∃ past past', s = ⟨past, []⟩ ∧ s' = ⟨past', []⟩) ∨
    ∃ past past' token token' rest rest', s = ⟨past, token :: rest⟩ ∧ s' = ⟨past', token' :: rest'⟩ ∧
      T token token' ∧
      (token.kind.announcesLine = false → S ⟨token :: past, rest⟩ ⟨token' :: past', rest'⟩)
  length : ∀ {s s' : TokenStream}, S s s' → s'.rest.length = s.rest.length
  alter : ∀ {f g : Env → Env}, (∀ env env', env.Like ρ env' → (f env).Like ρ (g env')) →
    (∀ env : Env, env.Calm (f env)) → (∀ env : Env, env.Calm (g env)) → P Eq (modify f) (modify g)
  fail : ∀ {α : Type} {R : α → α → Prop} {token token' : Token} {fault : GrammarFault},
    T token token' → P R (Check.failAt token fault) (Check.failAt token' fault)
  failHere : ∀ {α : Type} {R : α × TokenStream → α × TokenStream → Prop} {s s' : TokenStream}
    {fault : GrammarFault}, S s s' → P R ((Parse.failHere fault).run s) ((Parse.failHere fault).run s')
  reportHere : ∀ {s s' : TokenStream} {fault : SemanticFault}, S s s' → fault.isJump = false →
    P Eq (Check.diagnose (.semantic fault) s.position? >>= Check.report)
      (Check.diagnose (.semantic fault) s'.position? >>= Check.report)

/-- Parsers that a relation holds of wherever both streams are in corresponding places. -/
def Parse.Side (P : ∀ ⦃α : Type⦄, (α → α → Prop) → Check α → Check α → Prop)
    (S : TokenStream → TokenStream → Prop) (R : α → α → Prop) (parser parser' : Parse α) : Prop :=
  ∀ s s', S s s' → P (fun read read' => R read.1 read'.1 ∧ S read.2 read'.2) (parser.run s) (parser'.run s')

namespace Parse

variable {T : Token → Token → Prop} {P : ∀ ⦃α : Type⦄, (α → α → Prop) → Check α → Check α → Prop}
  {S : TokenStream → TokenStream → Prop} {R : α → α → Prop} {R' : β → β → Prop}
  {parser parser' : Parse α} {next next' : α → Parse β} {kind : TokenKind}
  (w : Along ρ T P S)

namespace Along

section

variable (w : Along ρ T P S)

include w

theorem ret {a b : α} (h : R a b) : Side P S R (pure a) (pure b) :=
  fun _ _ same => w.done ⟨h, same⟩

theorem bind (first : Side P S R parser parser')
    (then_ : ∀ a b, R a b → Side P S R' (next a) (next' b)) :
    Side P S R' (parser >>= next) (parser' >>= next') :=
  fun s s' same => w.chain (first s s' same) fun _ _ reads => then_ _ _ reads.1 _ _ reads.2

theorem into {f : α → α} (first : Side P S (Maps f) parser parser')
    (then_ : ∀ a, Side P S R' (next a) (next' (f a))) :
    Side P S R' (parser >>= next) (parser' >>= next') :=
  w.bind first fun a _ eq => eq ▸ then_ a

theorem same (first : Side P S Eq parser parser')
    (then_ : ∀ a, Side P S R' (next a) (next' a)) : Side P S R' (parser >>= next) (parser' >>= next') :=
  w.bind first fun a _ eq => eq ▸ then_ a

theorem weaken {R' : α → α → Prop} (h : Side P S R parser parser')
    (weaker : ∀ a b, R a b → R' a b) : Side P S R' parser parser' :=
  fun s s' same => w.imp (h s s' same) fun _ _ reads => ⟨weaker _ _ reads.1, reads.2⟩

theorem lift {check check' : Check α} (h : P R check check') :
    Side P S R (liftM check) (liftM check') :=
  fun _ _ same => w.chain h fun _ _ related => w.done ⟨related, same⟩

theorem getThe_bind {next next' : Env → Parse β}
    (then_ : ∀ env env', env.Like ρ env' → Side P S R' (next env) (next' env')) :
    Side P S R' (getThe Env >>= next) (getThe Env >>= next') :=
  fun s s' same => w.read fun env env' like => then_ env env' like s s' same

end

theorem ite (_ : Along ρ T P S) {p : Prop} [Decidable p] {yes no yes' no' : Parse α}
    (then_ : p → Side P S R yes yes') (else_ : ¬ p → Side P S R no no') :
    Side P S R (if p then yes else no) (if p then yes' else no') := by
  by_cases holds : p
  · simpa only [if_pos holds] using then_ holds
  · simpa only [if_neg holds] using else_ holds

theorem fails (w : Along ρ T P S) {token token' : Token} (h : T token token') (fault : GrammarFault)
    {R : α × TokenStream → α × TokenStream → Prop} (s s' : TokenStream) :
    P R ((liftM (Check.failAt token fault : Check α) : Parse α).run s)
      ((liftM (Check.failAt token' fault : Check α) : Parse α).run s') := by
  show P R (Check.failAt token fault >>= fun a : α => pure (a, s))
    (Check.failAt token' fault >>= fun a : α => pure (a, s'))
  exact w.never (w.fail h)

theorem fails_bind (w : Along ρ T P S) {token token' : Token} (h : T token token') (fault : GrammarFault)
    {R : β × TokenStream → β × TokenStream → Prop} (s s' : TokenStream) :
    P R ((liftM (Check.failAt token fault : Check α) >>= next : Parse β).run s)
      ((liftM (Check.failAt token' fault : Check α) >>= next' : Parse β).run s') := by
  show P R ((liftM (Check.failAt token fault : Check α) : Parse α).run s >>= fun r => (next r.1).run r.2)
    ((liftM (Check.failAt token' fault : Check α) : Parse α).run s' >>= fun r => (next' r.1).run r.2)
  exact w.never (w.fails h fault s s')

/-- What is read differs in its place alone. Where a line would be named next, the rest must fail. -/
theorem advance_bind (w : Along ρ T P S) {next next' : Token → Parse β}
    (stop : ∀ token token', T token token' → token.kind = .separator .newline ∨ token.kind = .keyword .GOTO →
      ∀ {R : β × TokenStream → β × TokenStream → Prop} s s', P R ((next token).run s) ((next' token').run s'))
    (then_ : ∀ token token', T token token' → Side P S R' (next token) (next' token')) :
    Side P S R' (advance >>= next) (advance >>= next') := by
  intro s s' same
  rcases w.next same with ⟨past, past', rfl, rfl⟩ | ⟨past, past', token, token', rest, rest', rfl, rfl, h, more⟩
  · show P _ ((Parse.failHere .endOfSource : Parse Token).run _ >>= fun r => (next r.1).run r.2)
      ((Parse.failHere .endOfSource : Parse Token).run _ >>= fun r => (next' r.1).run r.2)
    exact w.never (w.failHere same)
  · cases announces : token.kind.announcesLine with
    | true =>
      simp only [TokenKind.announcesLine, Bool.or_eq_true, beq_iff_eq] at announces
      exact stop token token' h announces _ _
    | false => exact then_ token token' h _ _ (more announces)

end Along

theorem Along.peekKind?_eq (w : Along ρ T P S) {s s' : TokenStream} (same : S s s') :
    s'.peekKind? = s.peekKind? := by
  rcases w.next same with ⟨past, past', rfl, rfl⟩ | ⟨past, past', token, token', rest, rest', rfl, rfl, h, -⟩
  · rfl
  · exact congrArg some (w.alike h).kind

theorem Along.peekKind?_bind (w : Along ρ T P S) {next next' : Option TokenKind → Parse β}
    (then_ : ∀ s s', S s s' → P (fun read read' => R' read.1 read'.1 ∧ S read.2 read'.2)
      ((next s.peekKind?).run s) ((next' s.peekKind?).run s')) :
    Side P S R' (peekKind? >>= next) (peekKind? >>= next') := by
  intro s s' same
  show P _ ((next s.peekKind?).run s) ((next' s'.peekKind?).run s')
  rw [w.peekKind?_eq same]
  exact then_ s s' same

theorem Along.seen_bind (w : Along ρ T P S) {next next' : Token → Parse β} {s s' : TokenStream}
    (same : S s s') (seen : s.peekKind? = some kind) (other : kind.announcesLine = false)
    (then_ : ∀ token token', T token token' → Side P S R' (next token) (next' token')) :
    P (fun read read' => R' read.1 read'.1 ∧ S read.2 read'.2) ((advance >>= next).run s)
      ((advance >>= next').run s') := by
  rcases w.next same with ⟨past, past', rfl, rfl⟩ | ⟨past, past', token, token', rest, rest', rfl, rfl, h, more⟩
  · cases seen
  · cases Option.some.inj seen
    exact then_ token token' h _ _ (more other)

/-- The first values of an array, if there are any. -/
def firstValues (number : Nat) (name : Token) : Parse Unit := do
  let assigned ← accept (.operator .equal)
  if assigned || (← peekKind?) = some (.separator .leftBrace) then
    initializer number name

/-- An array of a size that has been checked. -/
def sizedArray (name : Token) (dims : List Nat) : Parse Unit := do
  let number ← Check.declare name.text dims
  let env ← getThe Env
  if let some v := env.symbols[number]? then
    Check.record (.declared env.line v)
  firstValues number name

/-- An array under a name that has been checked. -/
def namedArray (name : Token) (dims : List Nat) : Parse Unit := do
  if (Shape.size? dims).isSome then
    sizedArray name dims
  else
    Check.reportAt name (.arrayTooLarge name.text)
    sizedArray name (dims.map fun _ => 1)

theorem declaration_eq : declaration = (do
    let name ← expect .identifier
    let dims ← many (dimension name)
    let env ← getThe Env
    if (env.lookup? env.current name.text).isSome then
      Check.reportAt name (.alreadyDeclared name.text)
    namedArray name dims) := by
  unfold declaration namedArray
  simp only [pure_bind]
  rfl

section Steps

include w

theorem along_openBlock (opening : Opening) :
    P Eq (Check.openBlock opening) (Check.openBlock (opening.renumber ρ)) := by
  refine w.toAlong.same (Check.along_fresh w.toAlong) fun id =>
    w.alter (fun env env' like => { like with blocks := ?_ }) (fun _ => ⟨rfl, rfl, rfl, rfl, rfl⟩)
      fun _ => ⟨rfl, rfl, rfl, rfl, rfl⟩
  dsimp only
  rw [like.blocks, like.line, map_cons, OpenBlock.renumber, Block.renumber, Array.map_empty]

theorem along_expect (other : kind.announcesLine = false) : Side P S T (expect kind) (expect kind) := by
  intro s s' same
  rcases w.next same with ⟨past, past', rfl, rfl⟩ | ⟨past, past', token, token', rest, rest', rfl, rfl, h, more⟩
  · exact w.failHere same
  · have read (token : Token) (past rest : List Token) : (expect kind).run ⟨past, token :: rest⟩ =
        if token.kind = kind then pure (token, ⟨token :: past, rest⟩)
        else (liftM (Check.failAt token (.mismatch token.kind kind) : Check Token) : Parse Token).run
          ⟨past, token :: rest⟩ := by
      unfold expect
      simp only [StateT.run_bind, StateT.run_get, pure_bind, TokenStream.consume]
      by_cases isKind : token.kind = kind
      · simp only [if_pos isKind]
        rfl
      · simp only [if_neg isKind]
    rw [read, read, (w.alike h).kind]
    split
    next isKind => exact w.done ⟨h, more (isKind ▸ other)⟩
    next => exact w.fails h _ _ _

theorem along_accept? (other : kind.announcesLine = false) :
    Side P S (Option.Rel T) (accept? kind) (accept? kind) := by
  intro s s' same
  rcases w.next same with ⟨past, past', rfl, rfl⟩ | ⟨past, past', token, token', rest, rest', rfl, rfl, h, more⟩
  · exact w.done ⟨.none, same⟩
  · have read (token : Token) (past rest : List Token) : (accept? kind).run ⟨past, token :: rest⟩ =
        if token.kind = kind then pure (some token, ⟨token :: past, rest⟩)
        else pure (none, ⟨past, token :: rest⟩) := by
      unfold accept?
      simp only [StateT.run_bind, StateT.run_get, pure_bind, TokenStream.consume]
      by_cases isKind : token.kind = kind
      · simp only [if_pos isKind]
        rfl
      · simp only [if_neg isKind]
        rfl
    rw [read, read, (w.alike h).kind]
    split
    next isKind => exact w.done ⟨.some h, more (isKind ▸ other)⟩
    next => exact w.done ⟨.none, same⟩

theorem along_accept (other : kind.announcesLine = false) : Side P S Eq (accept kind) (accept kind) := by
  refine w.bind (along_accept? w other) fun found found' related => w.ret ?_
  cases related <;> rfl

theorem along_many {item item' : Parse (Option α)} (h : Side P S (Option.Rel R) item item') :
    Side P S (Forall₂ R) (many item) (many item') := by
  have run (bound : Nat) : Side P S (Forall₂ R) (many.go item bound) (many.go item' bound) := by
    induction bound with
    | zero => exact w.ret .nil
    | succ bound ih =>
      refine w.bind h fun found found' related => ?_
      cases related with
      | none => exact w.ret .nil
      | some related => exact w.bind ih fun _ _ rest => w.ret (.cons related rest)
  intro s s' same
  show P _ ((many.go item s.rest.length).run s) ((many.go item' s'.rest.length).run s')
  rw [w.length same]
  exact run _ s s' same

theorem along_many_nodes {item item' : Parse (Option Node)}
    (h : Side P S (Option.Rel (Maps (Node.renumber ρ))) item item') :
    Side P S (Maps (List.map (Node.renumber ρ))) (many item) (many item') :=
  w.weaken (along_many w h) fun _ _ => eq_map_of_forall₂

section Expressions

variable {expression : Parse Node} {name name' token token' : Token}
  (h : Side P S (Maps (Node.renumber ρ)) expression expression)

include h

theorem along_index :
    Side P S (Option.Rel (Maps (Node.renumber ρ))) (index expression) (index expression) := by
  refine w.bind (along_accept? w rfl) fun found found' related => ?_
  cases related with
  | none => exact w.ret .none
  | some bracket =>
    refine w.into h fun index => w.bind (along_expect w rfl) fun _ _ _ => ?_
    exact w.same (w.lift (Check.along_checkIndex w.toAlong bracket index)) fun _ => w.ret (.some rfl)

theorem along_variableRead (here : T name name') : Side P S (Maps (Node.renumber ρ))
    (variableRead expression name) (variableRead expression name') :=
  w.into (along_many_nodes w (along_index w h)) fun indices =>
    w.lift (Check.along_readVariable w.toAlong here indices)

theorem along_parenthesized :
    Side P S (Maps (Node.renumber ρ)) (parenthesized expression) (parenthesized expression) :=
  w.into h fun _ => w.bind (along_expect w rfl) fun _ _ _ => w.ret rfl

theorem along_negation (minus : T token token') : Side P S (Maps (Node.renumber ρ))
    (negation expression token) (negation expression token') := by
  refine w.advance_bind (fun token token' here announces => ?_) fun token token' here => ?_
  · rw [(w.alike here).kind]
    rcases announces with kind | kind <;> rw [kind] <;> exact w.fails here _
  · rw [(w.alike here).kind]
    cases token.kind with
    | literal kind =>
      cases kind
      case text => exact w.lift (w.fail here)
      all_goals exact w.lift (Check.along_literal w.toAlong here _ _)
    | identifier =>
      exact w.into (along_variableRead w h here) fun inner =>
        w.lift (Check.along_negated w.toAlong minus inner)
    | separator mark =>
      cases mark
      case leftParen =>
        exact w.into (along_parenthesized w h) fun inner =>
          w.lift (Check.along_negated w.toAlong minus inner)
      all_goals exact w.lift (w.fail here)
    | _ => exact w.lift (w.fail here)

theorem along_operand : Side P S (Maps (Node.renumber ρ)) (operand expression) (operand expression) := by
  refine w.advance_bind (fun token token' here announces => ?_) fun token token' here => ?_
  · rw [(w.alike here).kind]
    rcases announces with kind | kind <;> rw [kind] <;> exact w.fails here _
  · rw [(w.alike here).kind]
    cases token.kind with
    | literal kind => exact w.lift (Check.along_literal w.toAlong here _ _)
    | identifier => exact along_variableRead w h here
    | separator mark =>
      cases mark
      case leftParen => exact along_parenthesized w h
      all_goals exact w.lift (w.fail here)
    | operator operator =>
      cases operator
      case minus => exact along_negation w h here
      all_goals exact w.lift (w.fail here)
    | keyword => exact w.lift (w.fail here)

theorem along_tail :
    Side P S (Option.Rel (Check.Tail.Alike ρ T)) (tail expression) (tail expression) := by
  refine w.peekKind?_bind fun s s' same => ?_
  split
  next operator seen =>
    split
    next =>
      refine w.seen_bind same seen rfl fun token token' here => ?_
      exact w.into (along_operand w h) fun right => w.ret (.some (.intro here))
    next => exact w.ret .none s s' same
  next => exact w.ret .none s s' same

theorem along_expressionOver :
    Side P S (Maps (Node.renumber ρ)) (expressionOver expression) (expressionOver expression) :=
  w.into (along_operand w h) fun first => w.bind (along_many w (along_tail w h)) fun _ _ alike =>
    w.lift (Check.along_join w.toAlong first alike)

end Expressions

theorem along_expressionWithin (depth : Nat) : Side P S (Maps (Node.renumber ρ))
    (expressionWithin depth) (expressionWithin depth) := by
  induction depth with
  | zero => exact fun _ _ same => w.failHere same
  | succ depth ih => exact along_expressionOver w ih

theorem along_expression : Side P S (Maps (Node.renumber ρ)) expression expression := by
  intro s s' same
  show P _ ((expressionWithin s.rest.length).run s) ((expressionWithin s'.rest.length).run s')
  rw [w.length same]
  exact along_expressionWithin w _ s s' same

theorem along_indices : Side P S (Maps (List.map (Node.renumber ρ))) (indices expression)
    (indices expression) :=
  along_many_nodes w (along_index w (along_expression w))

section Statements

variable {name name' token token' : Token} (here : T name name')

include here

theorem along_enterBrace (place : Place) :
    Side P S Eq (enterBrace name place) (enterBrace name' place) := by
  unfold enterBrace
  rw [(w.alike here).text]
  exact w.ite (fun _ => w.same (w.lift (w.report here rfl)) fun _ => w.ret rfl) fun _ => w.ret rfl

theorem along_elements (number bound : Nat) (place : Place) :
    Side P S Eq (elements number name bound place) (elements number name' bound place) := by
  induction bound generalizing place with
  | zero => exact w.ite (fun _ => w.ret rfl) fun _ _ _ same => w.failHere same
  | succ bound ih =>
    refine w.ite (fun _ => w.ret rfl) fun _ => ?_
    refine w.advance_bind (fun token token' h announces => ?_) fun token token' h => ?_
    · rw [(w.alike h).kind]
      rcases announces with kind | kind <;> rw [kind] <;> exact w.fails h _
    · rw [(w.alike h).kind]
      cases token.kind with
      | literal kind =>
        exact w.same (w.lift (Check.along_element w.toAlong _ here _ h _ _)) fun _ => ih _
      | separator mark =>
        cases mark
        case leftBrace => exact w.same (along_enterBrace w here _) fun _ => ih _
        case rightBrace => exact ih _
        case comma => exact ih _
        all_goals exact w.lift (w.fail h)
      | operator operator =>
        cases operator
        case minus =>
          refine w.advance_bind (fun digits digits' h announces => ?_) fun digits digits' h => ?_
          · rw [(w.alike h).kind]
            rcases announces with kind | kind <;> rw [kind] <;> exact w.fails_bind h _
          · rw [(w.alike h).kind]
            cases digits.kind with
            | literal kind =>
              cases kind
              case text => exact fun s s' _ => w.fails_bind h _ s s'
              all_goals
                exact w.same (w.lift (Check.along_element w.toAlong _ here _ h _ _)) fun _ => ih _
            | _ => exact fun s s' _ => w.fails_bind h _ s s'
        all_goals exact w.lift (w.fail h)
      | _ => exact w.lift (w.fail h)

theorem along_initializer (number : Nat) :
    Side P S Eq (initializer number name) (initializer number name') := by
  refine w.getThe_bind fun env env' like => w.bind (along_expect w rfl) fun _ _ _ => ?_
  rw [like.symbols]
  refine w.same (along_enterBrace w here _) fun place s s' same => ?_
  show P _ ((elements number name s.rest.length place).run s)
    ((elements number name' s'.rest.length place).run s')
  rw [w.length same]
  exact along_elements w here _ _ _ s s' same

theorem along_dimension : Side P S (Option.Rel Eq) (dimension name) (dimension name') := by
  refine w.same (along_accept w rfl) fun found => w.ite (fun _ => ?_) fun _ => w.ret .none
  refine w.bind (along_expect w rfl) fun size size' h => ?_
  refine w.bind (along_expect w rfl) fun _ _ _ => ?_
  rw [(w.alike h).text, (w.alike here).text]
  split
  next => exact w.ret (.some rfl)
  next => exact w.same (w.lift (w.report h rfl)) fun _ => w.ret (.some rfl)

theorem along_sizedArray (dims : List Nat) :
    Side P S Eq (sizedArray name dims) (sizedArray name' dims) := by
  have values (number : Nat) : Side P S Eq (firstValues number name) (firstValues number name') :=
    w.same (along_accept w rfl) fun _ => w.peekKind?_bind fun s s' same =>
      w.ite (fun _ => along_initializer w here _) (fun _ => w.ret rfl) s s' same
  unfold sizedArray
  rw [(w.alike here).text]
  refine w.same (w.lift (Check.along_declare w.toAlong _ _)) fun number => ?_
  refine w.getThe_bind fun env env' like => ?_
  rw [like.symbols]
  split
  next => exact w.same (w.lift (Check.along_record w.toAlong _ _)) fun _ => values number
  next => exact values number

theorem along_namedArray (dims : List Nat) :
    Side P S Eq (namedArray name dims) (namedArray name' dims) := by
  unfold namedArray
  rw [(w.alike here).text]
  exact w.ite (fun _ => along_sizedArray w here dims)
    fun _ => w.same (w.lift (w.report here rfl)) fun _ => along_sizedArray w here _

theorem along_letStatement : Side P S Eq (letStatement name) (letStatement name') :=
  w.into (along_indices w) fun indices => w.bind (along_expect w rfl) fun _ _ _ =>
    w.into (along_expression w) fun value =>
      w.into (w.lift (Check.along_writtenVariable w.toAlong here indices)) fun target =>
        w.into (w.lift (Check.along_assignment w.toAlong here target value)) fun assigned =>
          w.lift (Check.along_attach w.toAlong assigned)

omit here

theorem along_declaration : Side P S Eq declaration declaration := by
  rw [declaration_eq]
  refine w.bind (along_expect w rfl) fun name name' here => ?_
  refine w.same (w.weaken (along_many w (along_dimension w here))
    fun _ _ h => forall₂_eq_eq_eq ▸ h) fun dims => ?_
  refine w.getThe_bind fun env env' like => ?_
  obtain ⟨line, current⟩ := like.current
  rw [current, like.lookup?, (w.alike here).text]
  exact w.ite (fun _ => w.same (w.lift (w.report here rfl)) fun _ => along_namedArray w here dims)
    fun _ => along_namedArray w here dims

theorem along_forStatement : Side P S Eq forStatement forStatement := by
  refine w.bind (along_expect w rfl) fun name name' here => ?_
  refine w.bind (along_expect w rfl) fun _ _ _ => w.into (along_expression w) fun start => ?_
  refine w.into (w.lift (Check.along_writtenVariable w.toAlong here [])) fun target => ?_
  refine w.into (w.lift (Check.along_assignment w.toAlong here target start)) fun start => ?_
  refine w.bind (along_expect w rfl) fun _ _ _ => w.into (along_expression w) fun limit => ?_
  refine w.same (along_accept w rfl) fun found => ?_
  have finish (number : Nat) (step : Node) : Side P S Eq
      (do
        let id ← Check.fresh
        modifyThe Env Env.markLine
        Check.openBlock (.loop id number start limit step))
      (do
        let id ← Check.fresh
        modifyThe Env Env.markLine
        Check.openBlock (.loop id (ρ number) (start.renumber ρ) (limit.renumber ρ) (step.renumber ρ))) :=
    w.same (w.lift (Check.along_fresh w.toAlong)) fun id =>
      w.same (w.lift (Check.along_markLine w.toAlong)) fun _ =>
        w.lift (along_openBlock w (.loop id number start limit step))
  refine w.ite (fun _ => w.into (along_expression w) fun step => ?_)
    fun _ => w.into (w.lift (Check.along_literalNode w.toAlong _ _)) fun step => ?_
  all_goals
    refine w.getThe_bind fun env env' like => ?_
    rw [Node.kind_renumber, like.line]
    cases step.kind with
    | literal value =>
      exact w.ite (fun _ => w.same (w.lift (Check.along_record w.toAlong _ _)) fun _ =>
        finish env.line step) fun _ => finish env.line step
    | _ => exact finish env.line step

theorem along_ifStatement : Side P S Eq ifStatement ifStatement := by
  refine w.into (along_expression w) fun lhs => ?_
  refine w.advance_bind (fun token token' h announces => ?_) fun token token' h => ?_
  · rw [(w.alike h).kind]
    rcases announces with kind | kind <;> rw [kind] <;> exact w.fails h _
  · rw [(w.alike h).kind]
    cases token.kind with
    | operator comparator =>
      refine w.ite (fun _ s s' _ => w.fails_bind h _ s s') fun _ => ?_
      refine w.into (along_expression w) fun rhs => ?_
      refine w.into (w.lift (Check.along_binary w.toAlong comparator h lhs rhs)) fun condition => ?_
      refine w.same (along_accept w rfl) fun _ => w.same (w.lift (Check.along_fresh w.toAlong)) fun id => ?_
      refine w.same (w.lift (Check.along_markLine w.toAlong)) fun _ => ?_
      refine w.getThe_bind fun env env' like => ?_
      rw [like.line]
      exact w.lift (along_openBlock w (.branch id env.line condition))
    | _ => exact w.lift (w.fail h)

theorem along_closed {outer : List OpenBlock} :
    Side P S Eq (modifyThe Env fun env => { env with blocks := outer })
      (modifyThe Env fun env => { env with blocks := outer.map (OpenBlock.renumber ρ) }) :=
  w.lift (w.alter (fun _ _ like => { like with blocks := rfl }) (fun _ => ⟨rfl, rfl, rfl, rfl, rfl⟩)
    fun _ => ⟨rfl, rfl, rfl, rfl, rfl⟩)

theorem along_elseStatement (h : T token token') :
    Side P S Eq (elseStatement token) (elseStatement token') := by
  refine w.getThe_bind fun env env' like => ?_
  rw [like.blocks]
  cases env.blocks with
  | nil => exact w.lift (w.fail h)
  | cons innermost outer =>
    obtain ⟨opening, consequence⟩ := innermost
    cases opening with
    | branch id line condition =>
      refine w.same (along_closed w) fun _ => ?_
      rw [Block.node_renumber]
      exact w.lift (along_openBlock w (.otherwise id line condition consequence.node))
    | _ => exact w.lift (w.fail h)

theorem along_endStatement (h : T token token') :
    Side P S Eq (endStatement token) (endStatement token') := by
  refine w.getThe_bind fun env env' like => ?_
  rw [like.blocks]
  cases env.blocks with
  | nil => exact w.lift (w.fail h)
  | cons innermost outer =>
    refine w.same (along_closed w) fun _ => ?_
    rw [Block.node_renumber, Opening.close_renumber]
    exact w.lift (Check.along_append w.toAlong _)

theorem along_format (statement : Keyword) :
    Side P S (Maps (Node.renumber ρ)) (format statement) (format statement) := by
  refine w.peekKind?_bind fun s s' same => ?_
  split
  next seen =>
    exact w.seen_bind same seen rfl fun token token' h => w.lift (Check.along_literal w.toAlong h _ _)
  next =>
    show P _ ((liftM (Check.diagnose _ s.position? >>= Check.report) >>= fun _ => expression : Parse Node).run s)
      ((liftM (Check.diagnose _ s'.position? >>= Check.report) >>= fun _ => expression : Parse Node).run s')
    exact w.same (w.lift (w.reportHere same rfl)) (fun _ => along_expression w) s s' same

theorem along_printStatement : Side P S Eq printStatement printStatement := by
  refine w.into (along_format w _) fun format => w.same (w.lift (Check.along_fresh w.toAlong)) fun id => ?_
  have item : Side P S (Option.Rel (Maps (Node.renumber ρ)))
      (do if ← accept (.separator .comma) then return some (← expression) else return none)
      (do if ← accept (.separator .comma) then return some (← expression) else return none) :=
    w.same (along_accept w rfl) fun _ =>
      w.ite (fun _ => w.into (along_expression w) fun _ => w.ret (.some rfl)) fun _ => w.ret .none
  exact w.into (along_many_nodes w item) fun arguments => w.getThe_bind fun env env' like =>
    w.lift (Check.along_attach_mk w.toAlong like id .print (format :: arguments))

theorem along_printlnStatement : Side P S Eq printlnStatement printlnStatement := by
  refine w.same (w.lift (Check.along_fresh w.toAlong)) fun id => w.getThe_bind fun env env' like => ?_
  intro s s' same
  have ends : s'.peek?.all Token.isNewline = s.peek?.all Token.isNewline := by
    have all := congrArg (Option.all (· == .separator .newline)) (w.peekKind?_eq same)
    rwa [TokenStream.peekKind?, TokenStream.peekKind?, Option.all_map, Option.all_map] at all
  show P _ ((if s.peek?.all Token.isNewline then _ else _ : Parse Unit).run s)
    ((if s'.peek?.all Token.isNewline then _ else _ : Parse Unit).run s')
  rw [ends]
  refine w.ite (fun _ => ?_) (fun _ => ?_) s s' same
  · exact w.into (w.lift (Check.along_literalNode w.toAlong _ _)) fun format =>
      w.lift (Check.along_attach_mk w.toAlong like id .println [format])
  · refine w.bind (along_expect w rfl) fun name name' here => ?_
    refine w.into (along_variableRead w (along_expression w) here) fun argument => ?_
    refine w.getThe_bind fun now now' like' => ?_
    rw [like'.type?]
    exact w.into (w.lift (Check.along_literalNode w.toAlong _ _)) fun format =>
      w.lift (Check.along_attach_mk w.toAlong like id .println [format, argument])

theorem along_readTarget :
    Side P S (Option.Rel (Maps (Node.renumber ρ))) readTarget readTarget := by
  refine w.same (along_accept w rfl) fun _ => w.ite (fun _ => ?_) fun _ => w.ret .none
  refine w.bind (along_expect w rfl) fun name name' here => w.into (along_indices w) fun indices => ?_
  refine w.into (w.lift (Check.along_writtenVariable w.toAlong here indices)) fun target => ?_
  have finish : Side P S (Option.Rel (Maps (Node.renumber ρ))) (pure (some target))
      (pure (some (target.renumber ρ))) := w.ret (.some rfl)
  rw [Node.kind_renumber]
  cases target.kind with
  | reference number =>
    refine w.getThe_bind fun env env' like => ?_
    rw [like.type?]
    exact w.ite (fun _ => w.same (w.lift (Check.along_setType w.toAlong _ _)) fun _ => finish)
      fun _ => finish
  | _ => exact finish

theorem along_readStatement : Side P S Eq readStatement readStatement :=
  w.into (along_format w _) fun format => w.same (w.lift (Check.along_fresh w.toAlong)) fun id =>
    w.into (along_many_nodes w (along_readTarget w)) fun targets => w.getThe_bind fun _ _ like =>
      w.lift (Check.along_attach_mk w.toAlong like id .read (format :: targets))

theorem along_statementBody (h : T token token') (other : token.kind ≠ .keyword .GOTO) :
    Side P S Eq (statementBody token) (statementBody token') := by
  unfold statementBody
  rw [(w.alike h).kind]
  split
  next => exact w.bind (along_expect w rfl) fun _ _ here => along_letStatement w here
  next => exact along_letStatement w h
  next => exact along_declaration w
  next jumps => exact absurd jumps other
  next => exact along_forStatement w
  next => exact along_ifStatement w
  next => exact along_elseStatement w h
  next => exact along_endStatement w h
  next => exact along_printStatement w
  next => exact along_printlnStatement w
  next => exact along_readStatement w
  next => exact w.ret rfl
  next => exact w.lift (w.fail h)

end Statements

end Steps

end Parse

end LineBasic
