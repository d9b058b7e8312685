import LineBasic.Proofs.Tree.Blocks

/-!
All nodes of a tree, and what it mentions.
-/

namespace LineBasic

open List

/-- What a tree mentions: a variable on a line, or a scope that begins. -/
inductive Mention where
  | refer (line number : Nat)
  | scope (id : Nat)
deriving DecidableEq

def Mention.scope? : Mention → Option Nat
  | refer .. => none
  | scope id => some id

namespace Node

mutual

/-- A node and all nodes below it, each before those below it. -/
def nodes : Node → List Node
  | ⟨id, line, kind, children⟩ => ⟨id, line, kind, children⟩ :: nodesAll children

def nodesAll : List Node → List Node
  | [] => []
  | node :: others => nodes node ++ nodesAll others

end

section Nodes

variable {symbols : Array Variable} {strings : Array Literal} {visible : List Nat} {number : Nat}
  {node child block : Node} {others more : List Node}

theorem nodes_eq : node.nodes = node :: nodesAll node.children := by
  cases node
  rw [nodes]

@[simp] theorem nodesAll_nil : nodesAll [] = [] := by
  rw [nodesAll]

@[simp] theorem nodesAll_cons : nodesAll (node :: others) = node.nodes ++ nodesAll others := by
  rw [nodesAll]

@[simp] theorem nodesAll_append : nodesAll (others ++ more) = nodesAll others ++ nodesAll more := by
  induction others with
  | nil => simp
  | cons node others ih => simp [ih]

theorem mem_nodesAll : child ∈ nodesAll others ↔ ∃ node ∈ others, child ∈ node.nodes := by
  induction others with
  | nil => simp
  | cons node others ih => simp [ih]

theorem mem_nodes : child ∈ node.nodes ↔ child = node ∨ ∃ inner ∈ node.children, child ∈ inner.nodes := by
  rw [nodes_eq, mem_cons, mem_nodesAll]

mutual

theorem blocks_eq_filter : (node : Node) →
    node.blocks = node.nodes.filter fun other => other.kind.vars?.isSome
  | ⟨id, line, kind, children⟩ => by
    rw [blocks_mk, nodes_eq, filter_cons, blocksAll_eq_filter children]
    split <;> rfl

theorem blocksAll_eq_filter : (nodes : List Node) →
    blocksAll nodes = (nodesAll nodes).filter fun other => other.kind.vars?.isSome
  | [] => by simp
  | node :: nodes => by
    rw [blocksAll_cons, nodesAll_cons, filter_append, blocks_eq_filter node,
      blocksAll_eq_filter nodes]

end

end Nodes

/-- What a node mentions itself. -/
def mention? (node : Node) : Option Mention :=
  match node.kind with
  | .reference number => some (.refer node.line number)
  | .program _ | .block _ => some (.scope node.id)
  | _ => none

/-- What a tree mentions, in the order of its nodes. -/
def mentions (node : Node) : List Mention :=
  node.nodes.filterMap mention?

def mentionsAll (nodes : List Node) : List Mention :=
  (nodesAll nodes).filterMap mention?

def scopes (node : Node) : List Nat :=
  node.mentions.filterMap Mention.scope?

section Mentions

variable {id line number : Nat} {vars : List Nat} {kind : NodeKind} {node : Node}
  {nodes others : List Node}

@[simp] theorem mentionsAll_nil : mentionsAll [] = [] := by
  simp [mentionsAll]

@[simp] theorem mentionsAll_cons :
    mentionsAll (node :: nodes) = node.mentions ++ mentionsAll nodes := by
  simp [mentionsAll, mentions]

@[simp] theorem mentionsAll_append :
    mentionsAll (nodes ++ others) = mentionsAll nodes ++ mentionsAll others := by
  simp [mentionsAll]

theorem mentions_reference :
    mentions ⟨id, line, .reference number, nodes⟩ = .refer line number :: mentionsAll nodes := by
  rw [mentions, nodes_eq]
  rfl

theorem mentions_program :
    mentions ⟨id, line, .program vars, nodes⟩ = .scope id :: mentionsAll nodes := by
  rw [mentions, nodes_eq]
  rfl

theorem mentions_block :
    mentions ⟨id, line, .block vars, nodes⟩ = .scope id :: mentionsAll nodes := by
  rw [mentions, nodes_eq]
  rfl

theorem mentions_other (h : mention? ⟨id, line, kind, nodes⟩ = none) :
    mentions ⟨id, line, kind, nodes⟩ = mentionsAll nodes := by
  rw [mentions, nodes_eq, filterMap_cons, h]
  rfl

@[simp] theorem mentions_literal {value : Literal} :
    mentions ⟨id, line, .literal value, []⟩ = [] := by
  rw [mentions_other rfl, mentionsAll_nil]

@[simp] theorem mentions_operator {operator : Operator} {type : Option ValueType} :
    mentions ⟨id, line, .operator operator type, nodes⟩ = mentionsAll nodes :=
  mentions_other rfl

theorem mention?_bind_scope? (node : Node) :
    node.mention?.bind Mention.scope? = if node.kind.vars?.isSome then some node.id else none := by
  obtain ⟨id, line, kind, children⟩ := node
  cases kind <;> rfl

theorem scopes_eq (node : Node) : node.scopes = node.blocks.map Node.id := by
  rw [scopes, mentions, blocks_eq_filter, filterMap_filterMap]
  simp only [mention?_bind_scope?]
  induction node.nodes with
  | nil => rfl
  | cons first rest ih =>
    rw [filterMap_cons, filter_cons, ih]
    by_cases h : first.kind.vars?.isSome
    · rw [if_pos h, if_pos h, map_cons]
    · rw [if_neg h, if_neg h]

end Mentions

/-- References lead to visible variables, or to variables of a scope below around them. -/
def RefersWithin (visible : List Nat) (node : Node) : Prop :=
  ∀ child ∈ node.nodes, ∀ number, child.kind = .reference number →
    number ∈ visible ∨ ∃ block ∈ node.nodes, number ∈ block.vars ∧ child ∈ block.nodes

namespace RefersWithin

variable {symbols : Array Variable} {strings : Array Literal} {visible vars : List Nat}
  {id line : Nat} {kind : NodeKind} {node : Node} {nodes : List Node}

theorem mk (own : ∀ number, kind = .reference number → number ∈ visible)
    (below : ∀ node ∈ nodes, RefersWithin visible node) :
    RefersWithin visible ⟨id, line, kind, nodes⟩ := by
  intro child mem number refers
  rcases mem_nodes.mp mem with rfl | ⟨inner, isChild, mem⟩
  · exact .inl (own number refers)
  · refine (below inner isChild child mem number refers).imp_right ?_
    rintro ⟨block, inside, owns, around⟩
    exact ⟨block, mem_nodes.mpr (.inr ⟨inner, isChild, inside⟩), owns, around⟩

theorem within (isScope : kind.vars? = some vars)
    (below : ∀ node ∈ nodes, RefersWithin (vars ++ visible) node) :
    RefersWithin visible ⟨id, line, kind, nodes⟩ := by
  intro child mem number refers
  rcases mem_nodes.mp mem with rfl | ⟨inner, isChild, inside⟩
  · cases refers
    cases isScope
  · rcases below inner isChild child inside number refers with known | ⟨block, mem', owns, around⟩
    · rcases mem_append.mp known with own | outer
      · refine .inr ⟨⟨id, line, kind, nodes⟩, mem_nodes.mpr (.inl rfl), ?_, mem⟩
        show number ∈ kind.vars?.getD []
        rw [isScope]
        exact own
      · exact .inl outer
    · exact .inr ⟨block, mem_nodes.mpr (.inr ⟨inner, isChild, mem'⟩), owns, around⟩

theorem block (below : ∀ node ∈ nodes, RefersWithin (vars ++ visible) node) :
    RefersWithin visible ⟨id, line, .block vars, nodes⟩ :=
  within rfl below

theorem expression (h : IsExpression symbols strings visible node) : RefersWithin visible node := by
  induction h with
  | integer | decimal | text => exact mk (by simp) (by simp)
  | reference known _ _ _ ih => exact mk (by rintro _ ⟨⟩; exact known) ih
  | operation _ _ _ lhs rhs => exact mk (by simp) (by simp [lhs, rhs])

theorem format (h : IsFormat strings node) : RefersWithin visible node := by
  obtain ⟨_, _, _, _, _, _, rfl⟩ := h
  exact mk (by simp) (by simp)

theorem start (h : IsStart symbols strings visible node) : RefersWithin visible node := by
  obtain ⟨_, _, counter, value, isCounter, _, isValue, rfl⟩ := h
  exact mk (by simp) (by simp [expression isCounter.1, expression isValue])

theorem comparison (h : IsComparison symbols strings visible node) : RefersWithin visible node := by
  obtain ⟨_, _, _, _, lhs, rhs, _, isLeft, isRight, rfl⟩ := h
  exact mk (by simp) (by simp [expression isLeft, expression isRight])

theorem simple (h : IsSimple symbols strings visible node) : RefersWithin visible node := by
  cases h with
  | assign isTarget isValue => exact mk (by simp) (by simp [expression isTarget.1, expression isValue])
  | goto => exact mk (by simp) (by simp)
  | print isFormat isArgument =>
    refine mk (by simp) (forall_mem_cons.mpr ⟨format isFormat, fun argument mem => ?_⟩)
    exact expression (isArgument argument mem)
  | println isFormat isArgument =>
    refine mk (by simp) (forall_mem_cons.mpr ⟨format isFormat, fun argument mem => ?_⟩)
    exact expression (isArgument argument (Option.mem_toList.mp mem)).1
  | read isFormat isTarget =>
    refine mk (by simp) (forall_mem_cons.mpr ⟨format isFormat, fun target mem => ?_⟩)
    exact expression (isTarget target mem).1

theorem statement (h : IsStatement symbols strings visible node) : RefersWithin visible node := by
  induction h with
  | simple isSimple => exact simple isSimple
  | loop isStart isLimit isStep _ ih =>
    refine mk (by simp) ?_
    simp only [forall_mem_cons, not_mem_nil, false_implies, implies_true, and_true]
    exact ⟨start isStart, expression isLimit, expression isStep, block ih⟩
  | branch isCondition _ ih =>
    refine mk (by simp) ?_
    simp only [forall_mem_cons, not_mem_nil, false_implies, implies_true, and_true]
    exact ⟨comparison isCondition, block ih⟩
  | branchElse isCondition _ _ ih ih' =>
    refine mk (by simp) ?_
    simp only [forall_mem_cons, not_mem_nil, false_implies, implies_true, and_true]
    exact ⟨comparison isCondition, block ih, block ih'⟩

end RefersWithin

end Node

end LineBasic
